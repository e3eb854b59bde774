import Graphy.Store.Proofs.SourceRows

/-!
# Scans of one segment

A segment scan serves a list of rows: each batch takes rows from its front until
the batch is full or the rows are used up.  The rows of a triple are its graphs,
found through the graph layer.
-/

namespace Graphy

open BitVector

namespace QuadBatch

@[simp] theorem len_push (b : QuadBatch) (q : QuadKey) : (b.push q).len = b.len + 1 := by
  simp [push, len]

@[simp] theorem capacity_push (b : QuadBatch) (q : QuadKey) : (b.push q).capacity = b.capacity := rfl

theorem isFull_iff {b : QuadBatch} : b.isFull = true ↔ b.len = b.capacity := decide_eq_true_iff

end QuadBatch

/-! ## The graphs of a triple -/

namespace Graphs

/-- The graphs of a stretch of the quad list. -/
def fan (graphs : Graphs) (t : TripleKey) (qi qEnd : Nat) : List QuadKey :=
  (List.range' qi (qEnd - qi)).map fun i => t.inGraph (Col.dict (graphs.tg.access i))

theorem fan_of_le {graphs : Graphs} {t : TripleKey} {qi qEnd : Nat} (h : qEnd ≤ qi) :
    graphs.fan t qi qEnd = [] := by
  rw [fan, Nat.sub_eq_zero_of_le h]
  rfl

theorem fan_of_lt {graphs : Graphs} {t : TripleKey} {qi qEnd : Nat} (h : qi < qEnd) :
    graphs.fan t qi qEnd =
      t.inGraph (Col.dict (graphs.tg.access qi)) :: graphs.fan t (qi + 1) qEnd := by
  rw [fan, range'_of_lt h]
  rfl

end Graphs

/-- The rows of one triple of a source. -/
def Segment.rowsOf (seg : Segment) (filter : Pattern) (e : TripleKey × Option Nat) : List QuadKey :=
  if (filter.s.any fun v => decide (v ≠ e.1.s)) || (filter.p.any fun v => decide (v ≠ e.1.p)) ||
      (filter.o.any fun v => decide (v ≠ e.1.o)) then []
  else
    match seg.graphs with
    | none => [e.1.inGraph (Col.dict 0)]
    | some graphs =>
        match filter.g with
        | some g => if graphs.member g (e.2.getD 0) then [e.1.inGraph g] else []
        | none => graphs.fan e.1 (graphs.quadRange (e.2.getD 0)).1 (graphs.quadRange (e.2.getD 0)).2

namespace SegmentScan

/-- The rows suspended at the last batch boundary. -/
def suspended (scan : SegmentScan) : List QuadKey :=
  match scan.fanOut, scan.seg.graphs with
  | some f, some graphs => graphs.fan f.t f.qi f.qEnd
  | _, _ => []

/-- Two scans over the same segment, order and pattern. -/
structure SameScan (a b : SegmentScan) : Prop where
  seg : b.seg = a.seg
  order : b.order = a.order
  filter : b.filter = a.filter

theorem SameScan.refl (scan : SegmentScan) : SameScan scan scan := ⟨rfl, rfl, rfl⟩

theorem SameScan.trans {a b c : SegmentScan} (h : SameScan a b) (h' : SameScan b c) :
    SameScan a c :=
  ⟨h'.seg.trans h.seg, h'.order.trans h.order, h'.filter.trans h.filter⟩

/-- The cursor into the quad list is where the ordinal after the last begins. -/
def CursorOk (scan : SegmentScan) : Prop :=
  ∀ graphs last lastEnd, scan.seg.graphs = some graphs → scan.tgSeq = some (last, lastEnd) →
    lastEnd = graphs.quadRangeStart (last + 1)

/-- The forward scan from the cursor finds the same range as two selects. -/
theorem fanRange_eq {scan : SegmentScan} (cursor : scan.CursorOk) {graphs : Graphs}
    (layer : scan.seg.graphs = some graphs) {ord : Nat} (known : ord < graphs.tgStarts.count true) :
    scan.fanRange graphs ord = graphs.quadRange ord := by
  unfold fanRange
  split
  · rename_i last lastEnd seq
    split
    · rename_i next
      subst next
      have start := cursor graphs last lastEnd layer seq
      obtain ⟨pos, found⟩ := select1_isSome_of_lt known
      have at_ : graphs.quadRangeStart (last + 1) = pos := by
        rw [Graphs.quadRangeStart, if_neg (Nat.not_le.mpr known), found]
        rfl
      obtain ⟨bit, rank⟩ := select1_eq_some_iff.mp found
      have after : rank1 graphs.tgStarts (pos + 1) = last + 1 + 1 := by
        rw [rank1_succ_of_get bit, rank]
        rfl
      rw [Graphs.quadRange, start, at_, nextOne_eq_select1, after]
      congr 1
      rw [Graphs.quadRangeStart]
      split
      · rename_i none_
        rw [select1_eq_none_iff.mpr none_]
        rfl
      · rename_i some_
        obtain ⟨pos', found'⟩ := select1_isSome_of_lt (Nat.not_le.mp some_)
        rw [found']
        rfl
    · rfl
  · rfl

/-- Emitting a fan-out keeps the rows: those that do not fit are suspended. -/
theorem emitFanOut_spec {graphs : Graphs} {scan : SegmentScan} (layer : scan.seg.graphs = some graphs)
    (idle : scan.fanOut = none) (f : FanOut) {out : QuadBatch} (fits : out.len ≤ out.capacity) :
    ∃ scan' out', scan.emitFanOut graphs f out = (scan', out') ∧ scan.SameScan scan' ∧
      scan'.source = scan.source ∧ scan'.tgSeq = scan.tgSeq ∧
      out'.capacity = out.capacity ∧ out'.len ≤ out'.capacity ∧
      out'.rows ++ scan'.suspended = out.rows ++ graphs.fan f.t f.qi f.qEnd ∧
      (scan'.fanOut = none ∨ out'.isFull = true) := by
  induction h : f.qEnd - f.qi generalizing f out with
  | zero =>
      have done : ¬ f.qi < f.qEnd := by omega
      refine ⟨scan, out, by rw [emitFanOut, if_neg done], .refl scan, rfl, rfl, rfl, fits, ?_,
        Or.inl idle⟩
      rw [Graphs.fan_of_le (Nat.not_lt.mp done), suspended, idle]
  | succ n ih =>
      have more : f.qi < f.qEnd := by omega
      by_cases full : out.isFull = true
      · refine ⟨{ scan with fanOut := some f }, out, by rw [emitFanOut, if_pos more, if_pos full],
          ⟨rfl, rfl, rfl⟩, rfl, rfl, rfl, fits, ?_, Or.inr full⟩
        simp only [suspended, layer]
      · have room : out.len < out.capacity :=
          lt_of_le_of_ne fits fun eq => full (QuadBatch.isFull_iff.mpr eq)
        have pushed : (out.push (f.t.inGraph (Col.dict (graphs.tg.access f.qi)))).len ≤
            (out.push (f.t.inGraph (Col.dict (graphs.tg.access f.qi)))).capacity := by
          rw [QuadBatch.len_push, QuadBatch.capacity_push]
          exact room
        obtain ⟨scan', out', run, same, source, seq, cap, fits', rows, stop⟩ :=
          ih { f with qi := f.qi + 1 } pushed (by simp only; omega)
        refine ⟨scan', out', ?_, same, source, seq, cap, fits', ?_, stop⟩
        · rw [emitFanOut, if_pos more, if_neg full, run]
        · rw [rows, Graphs.fan_of_lt more]
          simp [QuadBatch.push]

/-- A scan that has these triples still to read. -/
structure Ready (scan : SegmentScan) (es : List (TripleKey × Option Nat)) : Prop where
  yields : scan.source.Yields scan.order es
  ordinals : ∀ graphs, scan.seg.graphs = some graphs →
    ∀ e ∈ es, ∃ ord, e.2 = some ord ∧ ord < graphs.tgStarts.count true
  cursor : scan.CursorOk
  layered : scan.fanOut ≠ none → scan.seg.graphs ≠ none

/-- Emitting a triple keeps its rows. -/
theorem emit_spec {scan : SegmentScan} (cursor : scan.CursorOk) (idle : scan.fanOut = none)
    {e : TripleKey × Option Nat} (ordinal : ∀ graphs, scan.seg.graphs = some graphs →
      ∃ ord, e.2 = some ord ∧ ord < graphs.tgStarts.count true) {out : QuadBatch}
    (room : out.len < out.capacity) :
    ∃ scan' out', scan.emit e.1 e.2 out = .ok (scan', out') ∧ scan.SameScan scan' ∧
      scan'.CursorOk ∧ (scan'.fanOut ≠ none → scan'.seg.graphs ≠ none) ∧
      out'.capacity = out.capacity ∧ out'.len ≤ out'.capacity ∧
      out'.rows ++ scan'.suspended = out.rows ++ scan.seg.rowsOf scan.filter e ∧
      (scan'.fanOut = none ∨ out'.isFull = true) := by
  have quiet : scan.suspended = [] := by rw [suspended, idle]
  have layered : scan.fanOut ≠ none → scan.seg.graphs ≠ none := fun h => absurd idle h
  have pushed (q : QuadKey) : (out.push q).len ≤ (out.push q).capacity := by
    rw [QuadBatch.len_push, QuadBatch.capacity_push]
    exact room
  unfold emit
  by_cases rejected : scan.rejects e.1 = true
  · refine ⟨scan, out, if_pos rejected, .refl scan, cursor, layered, rfl, room.le, ?_, Or.inl idle⟩
    rw [rejects] at rejected
    rw [quiet, Segment.rowsOf, if_pos rejected]
  · rw [if_neg rejected]
    rw [rejects] at rejected
    cases layer : scan.seg.graphs with
    | none =>
        refine ⟨scan, _, rfl, .refl scan, cursor, layered, rfl, pushed _, ?_, Or.inl idle⟩
        rw [quiet, Segment.rowsOf, if_neg rejected, layer, List.append_nil]
        rfl
    | some graphs =>
        obtain ⟨ord, hint, known⟩ := ordinal graphs layer
        have looked : scan.ordinal e.1 e.2 = .ok ord := by simp only [SegmentScan.ordinal, hint]
        rw [looked]
        cases bound : scan.filter.g with
        | some g =>
            refine ⟨scan, _, rfl, .refl scan, cursor, layered, ?_, ?_, ?_, Or.inl idle⟩
            · split <;> rfl
            · split
              · exact pushed _
              · exact room.le
            · rw [quiet, Segment.rowsOf, if_neg rejected, layer, bound, hint, Option.getD_some,
                List.append_nil]
              simp only
              split
              · rfl
              · rw [List.append_nil]
        | none =>
            have range := fanRange_eq cursor layer known
            obtain ⟨scan', out', run, same, source, seq, cap, fits, rows, stop⟩ :=
              @emitFanOut_spec graphs { scan with tgSeq := some (ord, (graphs.quadRange ord).2) }
                layer idle ⟨e.1, (graphs.quadRange ord).1, (graphs.quadRange ord).2⟩ out room.le
            refine ⟨scan', out', ?_, ⟨same.seg, same.order, same.filter⟩, ?_, ?_, cap, fits, ?_,
              stop⟩
            · change Except.ok (SegmentScan.emitFanOut { scan with
                tgSeq := some (ord, (scan.fanRange graphs ord).2) } graphs
                ⟨e.1, (scan.fanRange graphs ord).1, (scan.fanRange graphs ord).2⟩ out) = _
              rw [range, run]
            · intro graphs' last lastEnd layer' seq'
              have eq : scan'.seg.graphs = some graphs := by rw [same.seg]; exact layer
              rw [layer'] at eq
              cases eq
              rw [seq] at seq'
              cases seq'
              rfl
            · intro _
              rw [same.seg]
              simp [layer]
            · rw [rows, Segment.rowsOf, if_neg rejected, layer, bound, hint, Option.getD_some]

/-- Filling takes rows from the front until the batch is full or the rows are used up. -/
theorem fill_spec {scan : SegmentScan} {es : List (TripleKey × Option Nat)} (ready : scan.Ready es)
    {out : QuadBatch} (fits : out.len ≤ out.capacity)
    (idle : scan.fanOut = none ∨ out.isFull = true) :
    ∃ scan' out' es', scan.fill out = .ok (scan', out') ∧ scan.SameScan scan' ∧ scan'.Ready es' ∧
      out'.capacity = out.capacity ∧ out'.len ≤ out'.capacity ∧
      out'.rows ++ (scan'.suspended ++ es'.flatMap (scan.seg.rowsOf scan.filter)) =
        out.rows ++ (scan.suspended ++ es.flatMap (scan.seg.rowsOf scan.filter)) ∧
      ((scan'.fanOut = none ∧ es' = []) ∨ out'.isFull = true) := by
  induction es generalizing scan out with
  | nil =>
      by_cases full : out.isFull = true
      · exact ⟨scan, out, [], by rw [fill, if_pos full], .refl scan, ready, rfl, fits, rfl,
          Or.inr full⟩
      · have none_ := idle.resolve_right full
        cases ready.yields with
        | done ended =>
            obtain ⟨source', step, ended'⟩ := ended.next
            refine ⟨{ scan with source := source' }, out, [], ?_, ⟨rfl, rfl, rfl⟩,
              ⟨.done ended', ready.ordinals, ready.cursor, ready.layered⟩, rfl, fits, rfl,
              Or.inl ⟨none_, rfl⟩⟩
            rw [fill, if_neg full]
            split
            · rename_i found
              rw [step] at found
              cases found
              rfl
            · rename_i found
              rw [step] at found
              cases found
  | cons e es ih =>
      by_cases full : out.isFull = true
      · exact ⟨scan, out, e :: es, by rw [fill, if_pos full], .refl scan, ready, rfl, fits, rfl,
          Or.inr full⟩
      · have none_ := idle.resolve_right full
        have room : out.len < out.capacity :=
          lt_of_le_of_ne fits fun eq => full (QuadBatch.isFull_iff.mpr eq)
        cases ready.yields with
        | more step rest =>
            rename_i source'
            obtain ⟨mid, out₁, run, same, cursor, layered, cap, fits₁, rows, stop⟩ :=
              emit_spec ready.cursor none_
                (fun graphs layer => ready.ordinals graphs layer e List.mem_cons_self) room
            have ready₁ : Ready { mid with source := source' } es := by
              refine ⟨?_, ?_, cursor, layered⟩
              · rw [← same.order] at rest
                exact rest
              · intro graphs layer e' mem
                exact ready.ordinals graphs (by rw [← same.seg]; exact layer) e'
                  (List.mem_cons_of_mem _ mem)
            obtain ⟨scan', out', es', run', same', ready', cap', fits', rows', stop'⟩ :=
              ih ready₁ fits₁ stop
            refine ⟨scan', out', es', ?_, same.trans ⟨same'.seg, same'.order, same'.filter⟩, ready',
              cap'.trans cap, fits', ?_, stop'⟩
            · rw [fill, if_neg full]
              split
              · rename_i found
                rw [step] at found
                cases found
              · rename_i t hint source'' found
                rw [step] at found
                cases found
                rw [run]
                exact run'
            · have kept : ({ mid with source := source' } : SegmentScan).suspended =
                  mid.suspended := rfl
              have quiet : scan.suspended = [] := by rw [suspended, none_]
              rw [kept] at rows'
              simp only [same.seg, same.filter] at rows'
              rw [rows', ← List.append_assoc, rows, quiet, List.flatMap_cons, List.nil_append,
                List.append_assoc]

/-- A scan that serves these rows from its next batch on. -/
def Serves (scan : SegmentScan) (rows : List QuadKey) : Prop :=
  ∃ es, scan.Ready es ∧ rows = scan.suspended ++ es.flatMap (scan.seg.rowsOf scan.filter)

/-- A batch takes rows from the front until it is full or the rows are used up. -/
theorem nextBatch_spec {scan : SegmentScan} {rows : List QuadKey} (serves : scan.Serves rows)
    (out : QuadBatch) : ∃ scan' out' rows', scan.nextBatch out =
        .ok (!out'.rows.isEmpty, scan', out') ∧ scan'.Serves rows' ∧ out'.rows ++ rows' = rows ∧
      out'.capacity = out.capacity ∧ out'.len ≤ out'.capacity ∧
      (rows' = [] ∨ out'.len = out'.capacity) := by
  obtain ⟨es, ready, rfl⟩ := serves
  have fits : out.clear.len ≤ out.clear.capacity := Nat.zero_le _
  -- what the previous batch left of a triple's graphs comes first
  obtain ⟨mid, out₁, drained, same, ready₁, cap, fits₁, rows, stop⟩ :
      ∃ mid out₁, scan.drainFanOut out.clear = (mid, out₁) ∧ scan.SameScan mid ∧ mid.Ready es ∧
        out₁.capacity = out.capacity ∧ out₁.len ≤ out₁.capacity ∧
        out₁.rows ++ mid.suspended = scan.suspended ∧
        (mid.fanOut = none ∨ out₁.isFull = true) := by
    cases pending : scan.fanOut with
    | none =>
        refine ⟨scan, out.clear, ?_, .refl scan, ready, rfl, fits, rfl, Or.inl pending⟩
        rw [drainFanOut, pending]
    | some f =>
        cases layer : scan.seg.graphs with
        | none => exact absurd layer (ready.layered (by simp [pending]))
        | some graphs =>
            obtain ⟨mid, out₁, run, same, source, seq, cap, fits₁, rows, stop⟩ :=
              @emitFanOut_spec graphs { scan with fanOut := none } layer rfl f _ fits
            refine ⟨mid, out₁, ?_, ⟨same.seg, same.order, same.filter⟩, ?_, cap, fits₁, ?_, stop⟩
            · rw [drainFanOut, pending, layer]
              exact run
            · refine ⟨?_, ?_, ?_, ?_⟩
              · rw [source, same.order]
                exact ready.yields
              · intro graphs' layer'
                exact ready.ordinals graphs' (by rw [same.seg] at layer'; exact layer')
              · intro graphs' last lastEnd layer' seq'
                rw [seq] at seq'
                exact ready.cursor graphs' last lastEnd (by rw [same.seg] at layer'; exact layer')
                  seq'
              · intro _
                rw [same.seg]
                simp [layer]
            · rw [rows, suspended, pending, layer]
              rfl
  obtain ⟨scan', out', es', run, same', ready', cap', fits', rows', stop'⟩ :=
    fill_spec ready₁ fits₁ stop
  refine ⟨scan', out', scan'.suspended ++ es'.flatMap (scan'.seg.rowsOf scan'.filter), ?_,
    ⟨es', ready', rfl⟩, ?_, cap'.trans cap, fits', ?_⟩
  · rw [nextBatch, drained]
    change (mid.fill out₁).bind _ = _
    rw [run]
    rfl
  · rw [same'.seg, same'.filter, rows', ← List.append_assoc, rows, same.seg, same.filter]
  · rcases stop' with ⟨quiet, rfl⟩ | full
    · left
      rw [suspended, quiet]
      rfl
    · exact Or.inr (QuadBatch.isFull_iff.mp full)

end SegmentScan

/-! ## The rows of a base triple -/

theorem Graphs.quadRangeStart_eq (graphs : Graphs) (n : Nat) :
    graphs.quadRangeStart n = (select1 graphs.tgStarts n).getD graphs.tgStarts.length := by
  rw [quadRangeStart]
  split
  · rename_i none_
    rw [select1_eq_none_iff.mpr none_]
    rfl
  · rename_i some_
    obtain ⟨pos, found⟩ := select1_isSome_of_lt (Nat.not_le.mp some_)
    rw [found]
    rfl

section GraphLayer

variable {quads : List QuadKey} (sorted : quads.Pairwise (· < ·))

theorem count_tgStarts : (buildGraphs quads).tgStarts.count true = (triplesOf quads).length :=
  count_runMarks none _

include sorted

/-- The quad-list range of a triple holds its quads. -/
theorem quadRange_of_triple {ord : Nat} {u : TripleKey}
    (get : (triplesOf quads)[ord]? = some (Order.spo.toXyz u)) :
    (buildGraphs quads).quadRange ord =
      (quads.countP (fun q => decide (Order.spo.toXyz q.triple < Order.spo.toXyz u)),
        quads.countP (fun q => decide (Order.spo.toXyz q.triple ≤ Order.spo.toXyz u))) := by
  have weak : (quads.map fun q => Order.spo.toXyz q.triple).Pairwise fun a b => id a ≤ id b := by
    rw [List.pairwise_map]
    exact sorted.imp QuadKey.spo_le_of_lt
  obtain ⟨start, stop⟩ := run_range weak get
  have len : (buildGraphs quads).tgStarts.length =
      (quads.map fun q => Order.spo.toXyz q.triple).length := length_runMarks none _
  have starts : (buildGraphs quads).tgStarts =
      runMarks id none (quads.map fun q => Order.spo.toXyz q.triple) := rfl
  rw [Graphs.quadRange, Graphs.quadRangeStart_eq, Graphs.quadRangeStart_eq, len, starts, start, stop,
    Option.getD_some, List.countP_map, List.countP_map]
  rfl

/-- The fan of a triple shows its graphs, ascending. -/
theorem fan_of_triple {ord : Nat} {u : TripleKey}
    (get : (triplesOf quads)[ord]? = some (Order.spo.toXyz u))
    (plain : ∀ q ∈ quads, q.g.tag = 0) (t : TripleKey) :
    let range := (buildGraphs quads).quadRange ord
    ((buildGraphs quads).fan t range.1 range.2).Pairwise (fun a b => a.g < b.g) ∧
      ∀ q, q ∈ (buildGraphs quads).fan t range.1 range.2 ↔
        q.triple = t ∧ ∃ b ∈ quads, b.triple = u ∧ b.g = q.g := by
  have weak : quads.Pairwise fun a b => Order.spo.toXyz a.triple ≤ Order.spo.toXyz b.triple :=
    sorted.imp QuadKey.spo_le_of_lt
  have access {i : Nat} {b : QuadKey} (h : quads[i]? = some b) :
      Col.dict ((buildGraphs quads).tg.access i) = b.g := by
    have mem := List.mem_of_getElem? h
    have le := le_maxPayload (List.mem_map_of_mem (f := QuadKey.g) mem)
    have small : b.g.payload < 2 ^ max (bitsFor (maxPayload (quads.map QuadKey.g))) 1 :=
      lt_of_lt_of_le (WaveletMatrix.lt_two_pow_bitsFor le)
        (Nat.pow_le_pow_right (by decide) (le_max_left _ _))
    have value : (quads.map fun q => q.g.payload)[i]? = some b.g.payload := by simp [h]
    rw [buildGraphs, WaveletMatrix.access_new value, Nat.mod_eq_of_lt small,
      ← Col.eq_dict_of_tag (plain b mem)]
  rw [quadRange_of_triple sorted get]
  have entry {i : Nat} (h : i ∈ List.range'
      (quads.countP fun q => decide (Order.spo.toXyz q.triple < Order.spo.toXyz u))
      ((quads.countP fun q => decide (Order.spo.toXyz q.triple ≤ Order.spo.toXyz u)) -
        quads.countP fun q => decide (Order.spo.toXyz q.triple < Order.spo.toXyz u))) :
      ∃ b, quads[i]? = some b ∧ b.triple = u := by
    rw [List.mem_range'_1] at h
    have bound : (quads.countP fun q => decide (Order.spo.toXyz q.triple ≤ Order.spo.toXyz u)) ≤
        quads.length := List.countP_le_length
    have here := List.getElem?_eq_getElem (show i < quads.length by omega)
    have ge := (countP_lt_le_index weak here (Order.spo.toXyz u)).mp h.1
    have le := (index_lt_countP_le weak here (Order.spo.toXyz u)).mp (by omega)
    exact ⟨_, here, Order.spo_toXyz_injective (le_antisymm le ge)⟩
  constructor
  · refine List.pairwise_map.mpr (List.Pairwise.imp_of_mem ?_ List.pairwise_lt_range')
    intro i j hi hj lt
    obtain ⟨a, getA, eqA⟩ := entry hi
    obtain ⟨b, getB, eqB⟩ := entry hj
    obtain ⟨boundA, rfl⟩ := List.getElem?_eq_some_iff.mp getA
    obtain ⟨boundB, rfl⟩ := List.getElem?_eq_some_iff.mp getB
    have less := List.pairwise_iff_getElem.mp sorted i j boundA boundB lt
    have same := TripleKey.mk.inj (eqA.trans eqB.symm)
    rw [QuadKey.lt_iff, same.1, same.2.1, same.2.2] at less
    simp only [TripleKey.inGraph, access getA, access getB]
    simpa using less
  · intro q
    simp only [Graphs.fan, List.mem_map]
    constructor
    · rintro ⟨i, hi, rfl⟩
      obtain ⟨b, getB, eqB⟩ := entry hi
      exact ⟨rfl, b, List.mem_of_getElem? getB, eqB, (access getB).symm⟩
    · rintro ⟨rfl, b, memB, eqB, eqG⟩
      obtain ⟨i, getB⟩ := List.mem_iff_getElem?.mp memB
      have lower := (countP_lt_le_index weak getB (Order.spo.toXyz u)).mpr (by rw [eqB])
      have upper := (index_lt_countP_le weak getB (Order.spo.toXyz u)).mpr (by rw [eqB])
      refine ⟨i, ?_, ?_⟩
      · rw [List.mem_range'_1]
        omega
      · rw [access getB, eqG]
        rfl

/-- A graph's bitmap holds a triple exactly when a quad of that graph has it. -/
theorem member_of_triple {ord : Nat} {u : TripleKey}
    (get : (triplesOf quads)[ord]? = some (Order.spo.toXyz u))
    (plain : ∀ q ∈ quads, q.g.tag = 0) {g : Col} :
    (buildGraphs quads).member g ord = true ↔ ∃ b ∈ quads, b.triple = u ∧ b.g = g := by
  rw [buildGraphs_member]
  constructor
  · rintro ⟨b, inside, rfl, -⟩
    have same := numbered_get inside
    rw [get] at same
    exact ⟨b, mem_of_mem_numbered inside, (Order.spo_toXyz_injective (Option.some.inj same)).symm, rfl⟩
  · rintro ⟨b, memB, rfl, rfl⟩
    obtain ⟨m, inside⟩ := exists_numbered none 0 memB
    have place := numbered_get inside
    -- triples are distinct, so the quad is numbered with this ordinal
    have same : m = ord := by
      obtain ⟨boundM, eqM⟩ := List.getElem?_eq_some_iff.mp place
      obtain ⟨boundO, eqO⟩ := List.getElem?_eq_some_iff.mp get
      have nodup := (triplesOf_strict sorted).imp ne_of_lt
      exact (List.Nodup.getElem_inj_iff nodup).mp (eqM.trans eqO.symm)
    exact ⟨b, same ▸ inside, rfl, plain b memB⟩

end GraphLayer

theorem Pattern.matchesTriple_iff {pat : Pattern} {t : TripleKey} :
    pat.MatchesTriple t ↔ ((pat.s.any fun v => decide (v ≠ t.s)) ||
      (pat.p.any fun v => decide (v ≠ t.p)) || (pat.o.any fun v => decide (v ≠ t.o))) = false := by
  have one (c : Option Col) (v : Col) :
      (c.any fun w => decide (w ≠ v)) = false ↔ ∀ w ∈ c, w = v := by
    cases c <;> simp
  rw [Bool.or_eq_false_iff, Bool.or_eq_false_iff, one, one, one, and_assoc]
  rfl

/-- The rows of one triple of a source are its graphs, filtered by the pattern. -/
theorem Segment.Holds.mem_rowsOf [InlineCodec] {seg : Segment} {quads : List QuadKey}
    (holds : seg.Holds quads) {pat : Pattern} (reach : seg.graphs = none → ∀ v ∈ pat.g, v = Col.dict 0)
    {e : TripleKey × Option Nat} {ord : Nat} {u : TripleKey}
    (get : (triplesOf quads)[ord]? = some (Order.spo.toXyz u))
    (hint : hasNamedGraphs quads = true → e.2 = some ord) :
    (seg.rowsOf pat e).Pairwise (fun a b => a.g < b.g) ∧ ∀ q, q ∈ seg.rowsOf pat e ↔
      q.triple = e.1 ∧ pat.Matches q ∧ ∃ b ∈ quads, b.triple = u ∧ b.g = q.g := by
  have plain : ∀ q ∈ quads, q.g.tag = 0 := fun q mem => (holds.valid q mem).g_tag
  rw [Segment.rowsOf]
  by_cases matches_ : pat.MatchesTriple e.1
  · rw [if_neg (by rw [Pattern.matchesTriple_iff.mp matches_]; exact Bool.false_ne_true)]
    by_cases named : hasNamedGraphs quads = true
    · have layer : seg.graphs = some (buildGraphs quads) := by rw [holds.graphs, if_pos named]
      rw [layer, hint named]
      cases bound : pat.g with
      | none =>
          obtain ⟨ascending, members⟩ := fan_of_triple holds.sorted get plain e.1
          refine ⟨ascending, fun q => (members q).trans ?_⟩
          constructor
          · rintro ⟨eq, found⟩
            exact ⟨eq, ⟨by rwa [eq], by simp [bound]⟩, found⟩
          · rintro ⟨eq, -, found⟩
            exact ⟨eq, found⟩
      | some g =>
          have member := member_of_triple holds.sorted get plain (g := g)
          by_cases here : (buildGraphs quads).member g ord = true
          · simp only [Option.getD_some, here, if_true]
            refine ⟨List.pairwise_singleton _ _, fun q => ?_⟩
            rw [List.mem_singleton]
            constructor
            · rintro rfl
              exact ⟨rfl, ⟨matches_, by simp [bound, TripleKey.inGraph]⟩, member.mp here⟩
            · rintro ⟨eq, ⟨-, graph⟩, -⟩
              have eqG := graph g (by rw [bound]; rfl)
              cases q
              cases e
              simp only [QuadKey.triple] at eq eqG
              subst eq eqG
              rfl
          · simp only [Option.getD_some, here, Bool.false_eq_true, if_false]
            refine ⟨List.Pairwise.nil, fun q => ⟨fun h => absurd h List.not_mem_nil, ?_⟩⟩
            rintro ⟨-, ⟨-, graph⟩, found⟩
            rw [← graph g (by rw [bound]; rfl)] at found
            exact absurd (member.mpr found) here
    · have layer : seg.graphs = none := by rw [holds.graphs, if_neg named]
      have default_ := fun q mem => holds.default_graph (q := q) (by simpa using named) mem
      rw [layer]
      refine ⟨List.pairwise_singleton _ _, fun q => ?_⟩
      rw [List.mem_singleton]
      constructor
      · rintro rfl
        obtain ⟨b, memB, eqB⟩ := mem_triplesOf.mp (List.mem_of_getElem? get)
        exact ⟨rfl, ⟨matches_, reach layer⟩, b, memB, Order.spo_toXyz_injective eqB, default_ b memB⟩
      · rintro ⟨eq, -, b, memB, -, eqG⟩
        rw [default_ b memB] at eqG
        cases q
        cases e
        simp only [QuadKey.triple] at eq eqG
        subst eq eqG
        rfl
  · have rejected : ((pat.s.any fun v => decide (v ≠ e.1.s)) ||
        (pat.p.any fun v => decide (v ≠ e.1.p)) || (pat.o.any fun v => decide (v ≠ e.1.o))) = true := by
      by_contra h
      exact matches_ (Pattern.matchesTriple_iff.mpr (by simpa using h))
    rw [if_pos rejected]
    refine ⟨List.Pairwise.nil, fun q => ⟨fun h => absurd h List.not_mem_nil, ?_⟩⟩
    rintro ⟨eq, ⟨h, -⟩, -⟩
    rw [eq] at h
    exact absurd h matches_

end Graphy
