import Graphy.Store.Proofs.DeltaRange
import Graphy.Store.Proofs.Scan

/-!
# What a snapshot's scan shows

A scan shows the visible quads of its pattern, and the phantom quads of the
P-accessor that the delta leaves alone: the wavelet matrix keeps as many bits as
the predicates of the base quads need, so a predicate above that range, one that
stands inside triple terms only, shows the quads of the predicate its low bits name.
-/

namespace Graphy

open BitVector

/-! ## Phantom quads -/

/-- A quad the P-accessor shows that the base does not have. -/
def Segment.PhantomKey (seg : Segment) (q : QuadKey) : Prop :=
  ∃ foq, seg.foq = some foq ∧ seg.orderingBt .pso = none ∧ q.p.tag = 0 ∧
    q.p.payload < seg.dict.predicates.length ∧ q.p.payload % 2 ^ foq.wp.width ≠ q.p.payload ∧
    seg.containsQuad { q with p := Col.dict (q.p.payload % 2 ^ foq.wp.width) } = true

theorem Segment.Holds.width [InlineCodec] {seg : Segment} {quads : List QuadKey}
    (holds : seg.Holds quads) {foq : Foq} (layer : seg.foq = some foq) :
    foq.wp.width = bitsFor (maxPayload (quads.map QuadKey.p)) := by
  obtain ⟨spo, -, built⟩ := holds.foq foq layer
  rw [built]
  rfl

theorem Segment.Holds.spo_offered [InlineCodec] {base : Segment} {quads : List QuadKey}
    (holds : base.Holds quads) : Order.spo ∈ base.scanOrders := by
  obtain ⟨bt, mem⟩ := holds.hasSpo
  have inside : Order.spo ∈ base.orderings.map Prod.fst := List.mem_map_of_mem mem
  have keep {l : List Order} (h : Order.spo ∈ l) (o : Order) :
      Order.spo ∈ if o ∈ l then l else l ++ [o] := by
    split
    · exact h
    · exact List.mem_append_left _ h
  simp only [Segment.scanOrders]
  cases base.foq with
  | none => exact inside
  | some foq => exact keep (keep inside .pso) .osp

/-- An order that is offered but not materialized has accessors. -/
theorem Segment.foq_of_offered {seg : Segment} {order : Order} (offered : order ∈ seg.scanOrders)
    (none_ : seg.orderingBt order = none) : ∃ foq, seg.foq = some foq := by
  obtain ⟨foq, layer, -⟩ := (mem_scanOrders.mp offered).resolve_left (orderingBt_eq_none.mp none_)
  exact ⟨foq, layer⟩

/-- The rows of a base scan: the base quads and, in PSO, the phantom ones. -/
theorem Segment.Holds.shown_iff [InlineCodec] {seg : Segment} {quads : List QuadKey}
    (holds : seg.Holds quads) {order : Order} (offered : order ∈ seg.scanOrders) {q : QuadKey} :
    (∃ b ∈ quads, b.g = q.g ∧ seg.Shown order b.triple q.triple) ↔
      seg.containsQuad q = true ∨ (order = .pso ∧ seg.PhantomKey q) := by
  have low {b : QuadKey} (mem : b ∈ quads) {foq : Foq} (layer : seg.foq = some foq) :
      b.p.payload < 2 ^ foq.wp.width := by
    rw [holds.width layer]
    exact WaveletMatrix.lt_two_pow_bitsFor (le_maxPayload (List.mem_map_of_mem (f := QuadKey.p) mem))
  constructor
  · rintro ⟨b, mem, graph, shown⟩
    rw [Segment.Shown] at shown
    split at shown
    · rename_i virtual
      obtain ⟨foq, layer, s, o, tag, bound, payload⟩ := shown
      have base : b = { q with p := Col.dict (q.p.payload % 2 ^ foq.wp.width) } := by
        have p : b.p = Col.dict (q.p.payload % 2 ^ foq.wp.width) := by
          rw [Col.eq_dict_of_tag (holds.valid b mem).p.1]
          exact congrArg Col.dict payload
        cases b
        simp_all [QuadKey.triple]
      by_cases same : q.p.payload % 2 ^ foq.wp.width = q.p.payload
      · left
        have back : b = q := by
          rw [base, same]
          change { q with p := Col.dict q.triple.p.payload } = q
          rw [← Col.eq_dict_of_tag tag]
          rfl
        exact holds.containsQuad_iff.mpr (back ▸ mem)
      · exact Or.inr ⟨virtual.2, foq, layer, virtual.2 ▸ virtual.1, tag, bound, same,
          holds.containsQuad_iff.mpr (base ▸ mem)⟩
    · have back : b = q := by
        cases b
        cases q
        simp_all [QuadKey.triple]
      exact Or.inl (holds.containsQuad_iff.mpr (back ▸ mem))
  · rintro (inside | ⟨rfl, foq, layer, none_, tag, bound, ne, inside⟩)
    · have mem := holds.containsQuad_iff.mp inside
      refine ⟨q, mem, rfl, ?_⟩
      rw [Segment.Shown]
      split
      · rename_i virtual
        obtain ⟨foq, layer⟩ := Segment.foq_of_offered offered virtual.1
        exact ⟨foq, layer, rfl, rfl, (holds.valid q mem).p.1, (holds.valid q mem).p.2,
          (Nat.mod_eq_of_lt (low mem layer)).symm⟩
      · rfl
    · refine ⟨_, holds.containsQuad_iff.mp inside, rfl, ?_⟩
      rw [Segment.Shown, if_pos ⟨none_, rfl⟩]
      exact ⟨foq, layer, rfl, rfl, tag, bound, rfl⟩

/-! ## The rows of a scan -/

theorem QuadScan.Yields.unique {capacity : Nat} {scan : QuadScan} {a b : List (List QuadKey)}
    (ha : scan.Yields capacity a) (hb : scan.Yields capacity b) : a = b := by
  induction ha generalizing b with
  | done step =>
      cases hb with
      | done step' => rfl
      | more step' rest' =>
          rw [step] at step'
          cases step'
  | more step rest ih =>
      cases hb with
      | done step' =>
          rw [step] at step'
          cases step'
      | more step' rest' =>
          rw [step] at step'
          cases step'
          rw [ih rest']

section Scans

variable [InlineCodec]

namespace Snapshot

/-- The rows a scan serves: what the delta adds, and the base rows it leaves alone. -/
theorem WF.scan_spec {snap : Snapshot} (wf : snap.WF) {order : Order}
    (offered : order ∈ snap.base.scanOrders) (covered : (snap.delta.index order).isSome = true)
    (pat : Pattern) : ∃ scan rows, snap.scan pat order = .ok scan ∧ scan.Serves rows ∧
      Ascending order.scanKey rows ∧ ∀ q, q ∈ rows ↔ pat.Matches q ∧
        (snap.containsKey q = true ∨
          (order = .pso ∧ snap.base.PhantomKey q ∧ snap.delta.probe q snap.epoch = none)) := by
  obtain ⟨quads, holds⟩ := wf.holds
  obtain ⟨base, rows, run, serves, ascending, members⟩ := holds.scanOrder_spec offered pat
  let scan : QuadScan :=
    { order := order, base := base, stage := QuadBatch.withCapacity QuadBatch.batchCapacity,
      stagePos := 0, baseDone := false, delta := snap.delta.collectRange order pat snap.epoch,
      dpos := 0 }
  have sorted : Ascending (fun c : QuadKey × Bool => order.scanKey c.1) scan.changes := by
    rw [QuadScan.changes, List.drop_zero, Ascending, List.pairwise_map]
    exact Delta.ascending_collectRange covered pat snap.epoch
  have change (q : QuadKey) (kind : DeltaKind) :
      (q, kind) ∈ scan.delta ↔ pat.Matches q ∧ snap.delta.probe q snap.epoch = some kind :=
    Delta.mem_collectRange wf.coherent covered
  have put (q : QuadKey) : (q, true) ∈ scan.changes ↔
      pat.Matches q ∧ snap.delta.probe q snap.epoch = some .add := by
    rw [QuadScan.changes, List.drop_zero, ← change, List.mem_map]
    constructor
    · rintro ⟨⟨q', kind⟩, mem, eq⟩
      simp only [Prod.mk.injEq, decide_eq_true_eq] at eq
      obtain ⟨rfl, rfl⟩ := eq
      exact mem
    · exact fun mem => ⟨_, mem, by simp⟩
  have free (q : QuadKey) (matches_ : pat.Matches q) :
      (∀ c ∈ scan.changes, order.scanKey c.1 ≠ order.scanKey q) ↔
        snap.delta.probe q snap.epoch = none := by
    rw [QuadScan.changes, List.drop_zero, List.forall_mem_map]
    constructor
    · intro apart
      cases probe : snap.delta.probe q snap.epoch with
      | none => rfl
      | some kind => exact absurd rfl (apart _ ((change q kind).mpr ⟨matches_, probe⟩))
    · rintro none_ ⟨q', kind⟩ mem eq
      obtain rfl := order.scanKey_injective eq
      have decided := ((change q' kind).mp mem).2
      rw [none_] at decided
      cases decided
  refine ⟨scan, overlay order.scanKey rows scan.changes, ?_, ?_, ascending_overlay ascending sorted,
    fun q => ?_⟩
  · simp only [Snapshot.scan, run]
    rfl
  · exact ⟨rows, ⟨⟨rows, serves, by simp [scan], by simp [scan, QuadBatch.withCapacity]⟩,
      (by decide : 0 < 1024)⟩, rfl⟩
  · rw [mem_overlay ascending sorted, put, members, holds.shown_iff offered]
    constructor
    · rintro (⟨matches_, add⟩ | ⟨⟨matches_, shown⟩, apart⟩)
      · exact ⟨matches_, Or.inl (by rw [containsKey, add])⟩
      · have none_ := (free q matches_).mp apart
        refine ⟨matches_, shown.imp (fun inside => ?_) fun phantom => ⟨phantom.1, phantom.2, none_⟩⟩
        rw [containsKey, none_]
        exact inside
    · rintro ⟨matches_, visible | ⟨pso, phantom, none_⟩⟩
      · cases probe : snap.delta.probe q snap.epoch with
        | none =>
            rw [containsKey, probe] at visible
            exact Or.inr ⟨⟨matches_, Or.inl visible⟩, (free q matches_).mpr probe⟩
        | some kind =>
            cases kind with
            | add => exact Or.inl ⟨matches_, rfl⟩
            | tombstone =>
                rw [containsKey, probe] at visible
                cases visible
      · exact Or.inr ⟨⟨matches_, Or.inr ⟨pso, phantom⟩⟩, (free q matches_).mpr none_⟩

/-- Draining a scan gives every visible quad that matches once, ascending, and
nothing else. -/
def ScanCorrect (snap : Snapshot) (pat : Pattern) (order : Order) (capacity : Nat) : Prop :=
  ∃ scan batches, snap.scan pat order = .ok scan ∧ scan.Yields capacity batches ∧
    Ascending order.scanKey batches.flatten ∧
    ∀ q, q ∈ batches.flatten ↔ pat.Matches q ∧ snap.containsKey q = true

/-- The base has no phantom quad. -/
theorem WF.not_containsQuad_phantom {snap : Snapshot} (wf : snap.WF) {q : QuadKey}
    (phantom : snap.base.PhantomKey q) : snap.base.containsQuad q = false := by
  obtain ⟨quads, holds⟩ := wf.holds
  obtain ⟨foq, layer, -, -, -, ne, -⟩ := phantom
  by_contra inside
  have mem := holds.containsQuad_iff.mp (by simpa using inside)
  refine ne (Nat.mod_eq_of_lt ?_)
  rw [holds.width layer]
  exact WaveletMatrix.lt_two_pow_bitsFor (le_maxPayload (List.mem_map_of_mem (f := QuadKey.p) mem))

/-- A scan is correct when the delta decides every phantom quad it would show. -/
theorem WF.scanCorrect {snap : Snapshot} (wf : snap.WF) {order : Order}
    (offered : order ∈ snap.base.scanOrders) (covered : (snap.delta.index order).isSome = true)
    (pat : Pattern) {capacity : Nat} (some_ : 0 < capacity) :
    snap.ScanCorrect pat order capacity ↔ (order = .pso → ∀ q, snap.base.PhantomKey q →
      pat.Matches q → snap.delta.probe q snap.epoch ≠ none) := by
  obtain ⟨scan, rows, run, serves, ascending, members⟩ := wf.scan_spec offered covered pat
  obtain ⟨batches, yields, flat⟩ := QuadScan.yields_of_serves serves some_
  constructor
  · rintro ⟨scan', batches', run', yields', -, exact_⟩ pso q phantom matches_ none_
    rw [run] at run'
    cases run'
    rw [← yields.unique yields', flat] at exact_
    have visible := ((exact_ q).mp ((members q).mpr ⟨matches_, Or.inr ⟨pso, phantom, none_⟩⟩)).2
    rw [containsKey, none_] at visible
    exact Bool.false_ne_true ((wf.not_containsQuad_phantom phantom).symm.trans visible)
  · intro decided
    refine ⟨scan, batches, run, yields, flat ▸ ascending, fun q => ?_⟩
    rw [flat, members]
    constructor
    · rintro ⟨matches_, visible | ⟨pso, phantom, none_⟩⟩
      · exact ⟨matches_, visible⟩
      · exact absurd none_ (decided pso q phantom matches_)
    · rintro ⟨matches_, visible⟩
      exact ⟨matches_, Or.inl visible⟩

/-! ## Reachable states -/

/-- The newest snapshots of a store: opened on a base of the builder, then changed by
interning, recording above the epoch, garbage collection and index backfills. -/
inductive Reached : Snapshot → Prop where
  | opened {cfg : BuilderConfig} {dict : Dictionary} {source : List QuadKey} {seg : Segment}
      (generation : Nat) (wf : dict.WF) (valid : ∀ q ∈ source, dict.ValidKey q)
      (spo : Order.spo ∈ cfg.orderings.getD cfg.profile.orderings)
      (built : buildFromIds cfg dict source = .ok seg) : Reached (seg.freshSnapshot generation)
  | interned {snap : Snapshot} (q : QuadTerms) (reached : Reached snap) : Reached (snap.internKey q).1
  | recorded {snap : Snapshot} {tx : PlannedTx} (later : snap.epoch < tx.epoch)
      (valid : ∀ e ∈ tx.entries, snap.ValidKey e.1) (reached : Reached snap) :
      Reached (snap.record tx)
  | collected {snap : Snapshot} (floor : Nat) (reached : Reached snap) :
      Reached { snap with delta := snap.delta.gc floor snap.base.containsQuad }
  | ordered {snap : Snapshot} (order : Order) (reached : Reached snap) :
      Reached { snap with delta := snap.delta.addOrder order }

theorem Settled.gc {snap : Snapshot} (settled : snap.Settled) (floor : Nat)
    (inBase : QuadKey → Bool) : Settled { snap with delta := snap.delta.gc floor inBase } := by
  obtain ⟨coherent, events⟩ := Delta.eventsAt_gc settled.wf.coherent settled.wf.sorted floor inBase
  have sub (k : QuadKey) : ((snap.delta.gc floor inBase).eventsAt k).Sublist
      (snap.delta.eventsAt k) := by
    rw [events]
    exact Delta.gcEvents_sublist (settled.wf.sorted k) floor (inBase k)
  refine ⟨⟨settled.wf.holds, ?_, coherent, ?_, ?_⟩, ?_⟩
  · exact ⟨settled.wf.fits.space_base, settled.wf.fits.nodup, settled.wf.fits.fresh,
      settled.wf.fits.aliases_length⟩
  · intro k some_
    have valid := settled.wf.keysValid k fun nil => some_ (List.sublist_nil.mp (nil ▸ sub k))
    exact ⟨valid.s, valid.p, valid.o, valid.g⟩
  · exact fun k => (settled.wf.sorted k).sublist (sub k)
  · exact fun k ev mem => settled.below k ev ((sub k).subset mem)

theorem Settled.addOrder {snap : Snapshot} (settled : snap.Settled) (order : Order) :
    Settled { snap with delta := snap.delta.addOrder order } := by
  obtain ⟨coherent, events⟩ := Delta.addOrder_spec settled.wf.coherent order
  have space (pos : TermPos) : (snap.delta.addOrder order).space pos = snap.delta.space pos := by
    rw [Delta.addOrder]
    split
    · rfl
    · split
      · rfl
      · cases pos <;> rfl
  have valid {v : Col} {pos : TermPos} (h : snap.ValidCol v pos) :
      ValidCol { snap with delta := snap.delta.addOrder order } v pos := by
    cases pos <;> simpa only [ValidCol, Delta.spaceLen, space] using h
  refine ⟨⟨settled.wf.holds, ?_, coherent, ?_, ?_⟩, ?_⟩
  · constructor <;> simp only [space]
    · exact settled.wf.fits.space_base
    · exact settled.wf.fits.nodup
    · exact settled.wf.fits.fresh
    · exact settled.wf.fits.aliases_length
  · intro k some_
    simp only [events] at some_
    have old := settled.wf.keysValid k some_
    exact ⟨valid old.s, valid old.p, valid old.o, old.g.imp id valid⟩
  · intro k
    simp only [events]
    exact settled.wf.sorted k
  · intro k
    simp only [events]
    exact settled.below k

omit [InlineCodec] in
theorem Extends.covers {snap snap' : Snapshot} (ext : snap.Extends snap') {orders : List Order}
    (covers : snap.delta.Covers orders) : snap'.delta.Covers orders := by
  intro order mem
  rw [Delta.index, ext.delta.indexes]
  exact covers order mem

/-- Reachable states are settled and their indexes cover every scan order. -/
theorem Reached.invariant {snap : Snapshot} (reached : Reached snap) :
    snap.Settled ∧ snap.delta.Covers snap.base.scanOrders := by
  induction reached with
  | opened generation wf valid spo built =>
      obtain ⟨seg, built', holds, -⟩ := buildFromIds_holds _ wf valid spo
      rw [built] at built'
      cases built'
      exact ⟨fresh_settled holds generation, Delta.Covers.new _ _ _ _ _⟩
  | interned q reached ih =>
      obtain ⟨ext, fits, -⟩ := internKey_spec ih.1.wf.fits q
      refine ⟨ih.1.extends ext (ih.1.wf.extends ext fits), ?_⟩
      rw [ext.base]
      exact ext.covers ih.2
  | recorded later valid reached ih => exact ⟨ih.1.record later.le valid, ih.2.record _ _⟩
  | collected floor reached ih => exact ⟨ih.1.gc floor _, ih.2.gc floor _⟩
  | ordered order reached ih =>
      refine ⟨ih.1.addOrder order, fun o mem => ?_⟩
      exact ih.2.addOrder ih.1.wf.coherent.nonempty order o (List.mem_cons_of_mem _ mem)

/-- Scans of a reachable state, at any epoch. -/
theorem scanCorrect_iff {snap : Snapshot} (reached : Reached snap) (epoch : Nat) (pat : Pattern)
    {order : Order} (offered : order ∈ snap.base.scanOrders) {capacity : Nat} (some_ : 0 < capacity) :
    (snap.atEpoch epoch).ScanCorrect pat order capacity ↔
      (order = .pso → ∀ q, snap.base.PhantomKey q → pat.Matches q →
        snap.delta.probe q epoch ≠ none) := by
  obtain ⟨settled, covers⟩ := reached.invariant
  exact (settled.wf.atEpoch epoch).scanCorrect offered (covers order offered) pat some_

end Snapshot

end Scans

section Concrete

attribute [local instance] plainCodec

/-- The dictionary of one quad about a quoted triple, `:a :a <<( :a :b :a )>>`: no quad has
the predicate `:b`. -/
def quotedDict : Dictionary where
  shared := [letterIri 1]
  subjects := []
  predicates := [letterIri 1, letterIri 2]
  objects := []
  graphs := []
  ttRecords := [⟨Col.dict 0, Col.dict 1, Col.dict 0⟩]

def quotedQuads : List QuadKey := [⟨Col.dict 0, Col.dict 0, Col.tripleTerm 0, Col.dict 0⟩]

def quotedSegment : Segment :=
  ((buildFromIds ⟨.compact, none⟩ quotedDict quotedQuads).toOption).getD Segment.empty

theorem quoted_built : buildFromIds ⟨.compact, none⟩ quotedDict quotedQuads = .ok quotedSegment := by
  rfl

theorem quoted_wf : quotedDict.WF := by
  constructor <;> try decide
  intro i r get
  have bound := (List.getElem?_eq_some_iff.mp get).1
  obtain rfl : i = 0 := Nat.lt_one_iff.mp bound
  obtain rfl := Option.some.inj get
  exact ⟨⟨rfl, by decide⟩, ⟨rfl, by decide⟩, Or.inl ⟨rfl, by decide⟩, by decide⟩

theorem quoted_valid : ∀ q ∈ quotedQuads, quotedDict.ValidKey q := by
  intro q mem
  obtain rfl := List.mem_singleton.mp mem
  exact ⟨⟨rfl, by decide⟩, ⟨rfl, by decide⟩, Or.inr (Or.inl ⟨rfl, by decide⟩), rfl, by decide⟩

/-- A store opened on it and changed: the quad is deleted, and `:a :b :a` added. -/
def Snapshot.quoted : Snapshot :=
  (quotedSegment.freshSnapshot 0).record
    ⟨[(⟨Col.dict 0, Col.dict 0, Col.tripleTerm 0, Col.dict 0⟩, .tombstone),
      (⟨Col.dict 0, Col.dict 1, Col.dict 0, Col.dict 0⟩, .add)], 1, []⟩

theorem quoted_reached : Snapshot.quoted.Reached := by
  refine .recorded (by decide) ?_ (.opened 0 quoted_wf quoted_valid (by decide) quoted_built)
  intro e mem
  rcases List.mem_cons.mp mem with rfl | mem
  · exact ⟨⟨rfl, by decide⟩, ⟨rfl, by decide⟩, Or.inr (Or.inl ⟨rfl, by decide⟩), Or.inl rfl⟩
  · obtain rfl := List.mem_singleton.mp mem
    exact ⟨⟨rfl, by decide⟩, ⟨rfl, by decide⟩, Or.inl ⟨rfl, by decide⟩, Or.inl rfl⟩

/-- The wavelet matrix keeps no bit of its one predicate, so `:b` looks like `:a`. -/
theorem quoted_phantom :
    quotedSegment.PhantomKey ⟨Col.dict 0, Col.dict 1, Col.tripleTerm 0, Col.dict 0⟩ := by
  obtain ⟨foq, layer⟩ := Option.isSome_iff_exists.mp (by decide : quotedSegment.foq.isSome = true)
  have width : foq.wp.width = 0 := by
    have same : quotedSegment.foq.map (fun f => f.wp.width) = some 0 := by decide +kernel
    rw [layer] at same
    exact Option.some.inj same
  refine ⟨foq, layer, by decide +kernel, rfl, by decide +kernel, ?_, ?_⟩
  · rw [width]
    decide
  · rw [width]
    decide +kernel

theorem scanCorrect_iff_quoted :
    (Snapshot.quoted.atEpoch 1).ScanCorrect {} .osp 1 ↔
      (Order.osp = .pso → ∀ q, Snapshot.quoted.base.PhantomKey q → Pattern.Matches {} q →
        Snapshot.quoted.delta.probe q 1 ≠ none) :=
  Snapshot.scanCorrect_iff quoted_reached 1 {} (by decide) (by decide)

/-- The scan in PSO shows `:a :b <<( :a :b :a )>>` too. -/
theorem not_scanCorrect_quoted : Snapshot.quoted.Reached ∧
    Order.pso ∈ Snapshot.quoted.base.scanOrders ∧ ¬ Snapshot.quoted.ScanCorrect {} .pso 1 := by
  have offered : Order.pso ∈ Snapshot.quoted.base.scanOrders := by decide
  obtain ⟨settled, covers⟩ := quoted_reached.invariant
  refine ⟨quoted_reached, offered, fun correct => ?_⟩
  have decided := (settled.wf.scanCorrect offered (covers .pso offered) {} (by decide)).mp correct rfl
  exact decided _ quoted_phantom (by simp [Pattern.Matches, Pattern.MatchesTriple]) rfl

end Concrete

end Graphy
