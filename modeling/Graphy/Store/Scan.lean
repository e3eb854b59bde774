import Graphy.Misc.Overlay
import Graphy.Store.Commit

/-!
# Pattern scans

A segment scan walks one ordering, materialized or served by the FoQ accessors,
and fills batches with the matching quads; a triple's graphs may straddle two
batches.  The snapshot's scan zips it with the matching entries of the delta.
-/

namespace Graphy

open BitVector

/-- A batch of matching quads. -/
structure QuadBatch where
  rows : List QuadKey
  capacity : Nat
deriving DecidableEq, Repr

namespace QuadBatch

/-- Default batch capacity. -/
def batchCapacity : Nat := 1024

def withCapacity (capacity : Nat) : QuadBatch := ⟨[], capacity⟩

def len (b : QuadBatch) : Nat := b.rows.length

def clear (b : QuadBatch) : QuadBatch := { b with rows := [] }

def isFull (b : QuadBatch) : Bool := decide (b.len = b.capacity)

def push (b : QuadBatch) (q : QuadKey) : QuadBatch := { b with rows := b.rows ++ [q] }

end QuadBatch

/-- The triple in a graph. -/
def TripleKey.inGraph (t : TripleKey) (g : Col) : QuadKey := ⟨t.s, t.p, t.o, g⟩

namespace Graphs

/-- Number of quads before a triple ordinal. -/
def quadRangeStart (graphs : Graphs) (ordinal : Nat) : Nat :=
  if graphs.tgStarts.count true ≤ ordinal then graphs.tgStarts.length
  else (select1 graphs.tgStarts ordinal).getD 0

/-- Quad-list index range of a triple ordinal. -/
def quadRange (graphs : Graphs) (ord : Nat) : Nat × Nat :=
  (graphs.quadRangeStart ord, graphs.quadRangeStart (ord + 1))

end Graphs

/-! ## Sources of triples -/

/-- P-accessor: predicates `p` to `pEnd`, each walked through its occurrences `k` to
`kEnd`, each expanded through its run `zi` to `zEnd` under subject `s`. -/
structure FoqP where
  p : Nat
  pEnd : Nat
  k : Nat
  kEnd : Nat
  zi : Nat
  zEnd : Nat
  s : Col
deriving DecidableEq, Repr

def FoqP.next (spo : Bt) (foq : Foq) (c : FoqP) : Option (TripleKey × Nat) × FoqP :=
  if c.zi < c.zEnd then
    (some (⟨c.s, Col.dict c.p, spo.zAt c.zi⟩, c.zi), { c with zi := c.zi + 1 })
  else if c.k < c.kEnd then
    let yi := (foq.wp.select c.p c.k).getD 0
    next spo foq { c with
      k := c.k + 1
      s := spo.xValue (spo.groupOfY yi)
      zi := (spo.zRange yi).1
      zEnd := (spo.zRange yi).2 }
  else if c.p + 1 < c.pEnd then
    next spo foq { c with p := c.p + 1, k := 0, kEnd := foq.wp.rank (c.p + 1) foq.wp.len }
  else (none, { c with p := c.p + 1 })
termination_by (c.pEnd - c.p, c.kEnd - c.k)

/-- O-accessor: object indexes `j` to `jEnd`, each walked through its run `r` to `rEnd`. -/
structure FoqO where
  j : Nat
  jEnd : Nat
  o : Col
  r : Nat
  rEnd : Nat
deriving DecidableEq, Repr

def FoqO.next (spo : Bt) (foq : Foq) (c : FoqO) : Option (TripleKey × Nat) × FoqO :=
  if c.r < c.rEnd then
    let ord := foq.po.getD c.r 0
    let t := spo.tripleAt ord
    (some (⟨t.x, t.y, c.o⟩, ord), { c with r := c.r + 1 })
  else if c.j + 1 < c.jEnd then
    let (r, rEnd) := foq.objectRun (c.j + 1)
    next spo foq { c with j := c.j + 1, o := foq.xo.getD (c.j + 1) (Col.dict 0), r := r, rEnd := rEnd }
  else (none, { c with j := c.j + 1 })
termination_by c.jEnd - c.j

/-- Where the triples of a scan come from. -/
inductive Source where
  /-- A contiguous ordinal range of a materialized ordering. -/
  | range (bt : Bt) (iter : Bt.BtSeqIter)
  | foqP (spo : Bt) (foq : Foq) (c : FoqP)
  | foqO (spo : Bt) (foq : Foq) (c : FoqO)

namespace Source

/-- The next triple, with its SPO ordinal when the source knows it. -/
def next (order : Order) : Source → Option (TripleKey × Option Nat) × Source
  | range bt iter =>
      match iter.next bt with
      | (none, iter) => (none, range bt iter)
      | (some (i, t), iter) =>
          (some (order.toSpo t, if order = .spo then some i else bt.spoAt i), range bt iter)
  | foqP spo foq c =>
      let (e, c) := c.next spo foq
      (e.map fun e => (e.1, some e.2), foqP spo foq c)
  | foqO spo foq c =>
      let (e, c) := c.next spo foq
      (e.map fun e => (e.1, some e.2), foqO spo foq c)

/-- Force a source to its end. -/
def exhaust : Source → Source
  | range bt iter => range bt { iter with i := iter.stop }
  | foqP spo foq c => foqP spo foq { c with p := c.pEnd, k := c.kEnd, zi := c.zEnd }
  | foqO spo foq c => foqO spo foq { c with j := c.jEnd, r := c.rEnd }

/-- What a source still has to walk. -/
def left : Source → Nat × Nat × Nat
  | range _ iter => (iter.stop - iter.i, 0, 0)
  | foqP _ _ c => (c.pEnd - c.p, c.kEnd - c.k, c.zEnd - c.zi)
  | foqO _ _ c => (c.jEnd - c.j, c.rEnd - c.r, 0)

end Source

/-- One source has less to walk than another. -/
abbrev Less (a b : Nat × Nat × Nat) : Prop :=
  Prod.Lex (· < ·) (Prod.Lex (· < ·) (· < ·)) a b

theorem less_trans {a b c : Nat × Nat × Nat} (h : Less a b) (h' : Less b c) : Less a c := by
  obtain ⟨a1, a2, a3⟩ := a
  obtain ⟨b1, b2, b3⟩ := b
  obtain ⟨c1, c2, c3⟩ := c
  simp only [Less, Prod.lex_def] at *
  omega

theorem FoqP.next_less {spo : Bt} {foq : Foq} {c : FoqP} {e : TripleKey × Nat}
    (h : (c.next spo foq).1 = some e) :
    Less (Source.foqP spo foq (c.next spo foq).2).left (Source.foqP spo foq c).left := by
  induction c using FoqP.next.induct spo foq with
  | case1 c here =>
      rw [FoqP.next, if_pos here]
      exact Prod.Lex.right _ (Prod.Lex.right _ (Nat.sub_lt_sub_left here (Nat.lt_succ_self _)))
  | case2 c done here yi ih =>
      rw [FoqP.next, if_neg done, if_pos here] at h ⊢
      refine less_trans (ih h) ?_
      exact Prod.Lex.right _ (Prod.Lex.left _ _ (Nat.sub_lt_sub_left here (Nat.lt_succ_self _)))
  | case3 c done none_ more ih =>
      rw [FoqP.next, if_neg done, if_neg none_, if_pos more] at h ⊢
      refine less_trans (ih h) ?_
      exact Prod.Lex.left _ _ (by simp only; omega)
  | case4 c done none_ last =>
      rw [FoqP.next, if_neg done, if_neg none_, if_neg last] at h
      cases h

theorem FoqO.next_less {spo : Bt} {foq : Foq} {c : FoqO} {e : TripleKey × Nat}
    (h : (c.next spo foq).1 = some e) :
    Less (Source.foqO spo foq (c.next spo foq).2).left (Source.foqO spo foq c).left := by
  induction c using FoqO.next.induct spo foq with
  | case1 c here =>
      rw [FoqO.next, if_pos here]
      exact Prod.Lex.right _ (Prod.Lex.left _ _ (Nat.sub_lt_sub_left here (Nat.lt_succ_self _)))
  | case2 c done more r rEnd run ih =>
      rw [FoqO.next, if_neg done, if_pos more, run] at h ⊢
      refine less_trans (ih h) ?_
      exact Prod.Lex.left _ _ (by simp only; omega)
  | case3 c done last =>
      rw [FoqO.next, if_neg done, if_neg last] at h
      cases h

theorem Source.next_less {order : Order} {source : Source} {e : TripleKey × Option Nat}
    {source' : Source} (h : source.next order = (some e, source')) :
    Less source'.left source.left := by
  cases source with
  | range bt iter =>
      simp only [Source.next, Bt.BtSeqIter.next] at h
      by_cases stop : iter.stop ≤ iter.i
      · simp [stop] at h
      · simp only [stop, if_false] at h
        obtain ⟨-, rfl⟩ := Prod.mk.inj h
        have keep : (if iter.runEnd ≤ iter.i then iter.enterRun bt else iter).i = iter.i ∧
            (if iter.runEnd ≤ iter.i then iter.enterRun bt else iter).stop = iter.stop := by
          split
          · simp only [Bt.BtSeqIter.enterRun]
            split <;> exact ⟨rfl, rfl⟩
          · exact ⟨rfl, rfl⟩
        simp only [Source.left, Less, Prod.lex_def, keep]
        omega
  | foqP spo foq c =>
      obtain ⟨first, rfl⟩ := Prod.mk.inj h
      obtain ⟨e, found, -⟩ := Option.map_eq_some_iff.mp first
      exact FoqP.next_less found
  | foqO spo foq c =>
      obtain ⟨first, rfl⟩ := Prod.mk.inj h
      obtain ⟨e, found, -⟩ := Option.map_eq_some_iff.mp first
      exact FoqO.next_less found

/-! ## Scans of one segment -/

/-- The graphs of the current triple not emitted yet, as quad-list indices. -/
structure FanOut where
  t : TripleKey
  qi : Nat
  qEnd : Nat
deriving DecidableEq, Repr

/-- A running pattern scan over one ordering of a segment. -/
structure SegmentScan where
  seg : Segment
  order : Order
  source : Source
  /-- Residual filters, checked for every triple. -/
  filter : Pattern
  fanOut : Option FanOut
  /-- The last SPO ordinal and the end of its graphs. -/
  tgSeq : Option (Nat × Nat)

/-- Contiguous ordinal range of the pattern's bound prefix. -/
def prefixRange (bt : Bt) (pat : Pattern) (order : Order) : Nat × Nat :=
  let zero := Col.dict 0
  let want := order.toXyz ⟨pat.s.getD zero, pat.p.getD zero, pat.o.getD zero⟩
  let bound := order.toXyz ⟨flag pat.s, flag pat.p, flag pat.o⟩
  if bound.x ≠ Col.dict 1 then (0, bt.nTriples)
  else
    match bt.xGroup want.x with
    | none => (0, 0)
    | some g =>
        if bound.y = Col.dict 1 then
          match bt.findY g want.y with
          | none => (0, 0)
          | some yi =>
              if bound.z = Col.dict 1 then
                match bt.findZ yi want.z with
                | none => (0, 0)
                | some i => (i, i + 1)
              else bt.zRange yi
        else bt.zRangeOfGroup g

/-- The P-accessor at the pattern's predicate, or at the first of all. -/
def FoqP.start (foq : Foq) (nPreds : Nat) (p : Option Col) : FoqP :=
  let (p, pEnd) :=
    match p with
    | some p => if p < Col.dict nPreds then (p.payload, p.payload + 1) else (0, 0)
    | none => (0, nPreds)
  { p := p
    pEnd := pEnd
    k := 0
    kEnd := if p < pEnd then foq.wp.rank p foq.wp.len else 0
    zi := 0
    zEnd := 0
    s := Col.dict 0 }

/-- The O-accessor at the pattern's object, or at the first of all. -/
def FoqO.start (foq : Foq) (o : Option Col) : FoqO :=
  let (j, jEnd) :=
    match o with
    | some o =>
        match foq.locateObject o with
        | some j => (j, j + 1)
        | none => (0, 0)
    | none => (0, foq.nObjects)
  if j < jEnd then
    let (r, rEnd) := foq.objectRun j
    ⟨j, jEnd, foq.xo.getD j (Col.dict 0), r, rEnd⟩
  else ⟨j, jEnd, Col.dict 0, 0, 0⟩

/-- The source of an order, if the profile offers it. -/
def Segment.source (seg : Segment) (pat : Pattern) (order : Order) : Option Source :=
  match seg.orderingBt order, seg.foq, seg.orderingBt .spo, order with
  | some bt, _, _, _ =>
      let (lo, hi) := prefixRange bt pat order
      some (.range bt (bt.seqRange lo hi))
  | none, some foq, some spo, .pso =>
      some (.foqP spo foq (FoqP.start foq seg.dict.predicates.length pat.p))
  | none, some foq, some spo, .osp => some (.foqO spo foq (FoqO.start foq pat.o))
  | _, _, _, _ => none

def Order.name : Order → String
  | .spo => "spo"
  | .sop => "sop"
  | .pos => "pos"
  | .pso => "pso"
  | .osp => "osp"
  | .ops => "ops"

/-- Scan a pattern in an order.  A named graph bound on a segment of triples only
matches nothing. -/
def Segment.scanOrder (seg : Segment) (pat : Pattern) (order : Order) :
    Except StoreError SegmentScan :=
  match seg.source pat order with
  | none => .error (.manifest s!"ordering {order.name} not available in this profile")
  | some source =>
      let named := pat.g.any fun g => decide (Col.dict 0 < g)
      .ok {
        seg := seg
        order := order
        source := if named && seg.graphs.isNone then source.exhaust else source
        filter := pat
        fanOut := none
        tgSeq := none }

namespace SegmentScan

/-- Emit a triple's graphs, suspending where the batch fills. -/
def emitFanOut (scan : SegmentScan) (graphs : Graphs) (f : FanOut) (out : QuadBatch) :
    SegmentScan × QuadBatch :=
  if f.qi < f.qEnd then
    if out.isFull then ({ scan with fanOut := some f }, out)
    else
      emitFanOut scan graphs { f with qi := f.qi + 1 }
        (out.push (f.t.inGraph (Col.dict (graphs.tg.access f.qi))))
  else (scan, out)
termination_by f.qEnd - f.qi

/-- Whether a residual filter rejects the triple. -/
def rejects (scan : SegmentScan) (t : TripleKey) : Bool :=
  (scan.filter.s.any fun v => decide (v ≠ t.s)) || (scan.filter.p.any fun v => decide (v ≠ t.p)) ||
    (scan.filter.o.any fun v => decide (v ≠ t.o))

/-- SPO ordinal of a triple: the source's, or looked up. -/
def ordinal (scan : SegmentScan) (t : TripleKey) (hint : Option Nat) : Except StoreError Nat :=
  match hint with
  | some ord => .ok ord
  | none =>
      match scan.seg.spoOrdinal t with
      | some ord => .ok ord
      | none => .error (.corrupt s!"triple ({t.s.raw},{t.p.raw},{t.o.raw}) missing from SPO")

/-- Quad-list range of an ordinal; the one after the last ordinal is found by a
forward scan. -/
def fanRange (scan : SegmentScan) (graphs : Graphs) (ord : Nat) : Nat × Nat :=
  match scan.tgSeq with
  | some (last, lastEnd) =>
      if ord = last + 1 then
        (lastEnd, (nextOne graphs.tgStarts (lastEnd + 1)).getD graphs.tgStarts.length)
      else graphs.quadRange ord
  | none => graphs.quadRange ord

/-- Emit the quads of one triple. -/
def emit (scan : SegmentScan) (t : TripleKey) (hint : Option Nat) (out : QuadBatch) :
    Except StoreError (SegmentScan × QuadBatch) :=
  if scan.rejects t then .ok (scan, out)
  else
    match scan.seg.graphs with
    | none => .ok (scan, out.push (t.inGraph (Col.dict 0)))
    | some graphs => do
        let ord ← scan.ordinal t hint
        match scan.filter.g with
        | some g => return (scan, if graphs.member g ord then out.push (t.inGraph g) else out)
        | none =>
            let (qi, qEnd) := scan.fanRange graphs ord
            return { scan with tgSeq := some (ord, qEnd) }.emitFanOut graphs ⟨t, qi, qEnd⟩ out

/-- Fill the batch from the source. -/
def fill (scan : SegmentScan) (out : QuadBatch) : Except StoreError (SegmentScan × QuadBatch) :=
  if out.isFull then .ok (scan, out)
  else
    match _h : scan.source.next scan.order with
    | (none, source) => .ok ({ scan with source := source }, out)
    | (some (t, hint), source) =>
        match scan.emit t hint out with
        | .error e => .error e
        | .ok (scan, out) => fill { scan with source := source } out
termination_by scan.source.left
decreasing_by exact Source.next_less _h

/-- Drain a fan-out suspended at the previous batch boundary. -/
def drainFanOut (scan : SegmentScan) (out : QuadBatch) : SegmentScan × QuadBatch :=
  match scan.fanOut, scan.seg.graphs with
  | some f, some graphs => { scan with fanOut := none }.emitFanOut graphs f out
  | _, _ => (scan, out)

/-- Fill the batch with the next quads, up to its capacity; false when there are none. -/
def nextBatch (scan : SegmentScan) (out : QuadBatch) :
    Except StoreError (Bool × SegmentScan × QuadBatch) := do
  let (scan, out) := scan.drainFanOut out.clear
  let (scan, out) ← scan.fill out
  return (!out.rows.isEmpty, scan, out)

end SegmentScan

/-! ## Scans of a snapshot -/

/-- A zipper of the base scan and the matching delta entries. -/
structure QuadScan where
  order : Order
  base : SegmentScan
  /-- Base rows not zipped yet, from `stagePos` on. -/
  stage : QuadBatch
  stagePos : Nat
  baseDone : Bool
  delta : List (QuadKey × DeltaKind)
  dpos : Nat

namespace QuadScan

def stageKey (scan : QuadScan) : Option QuadKey := scan.stage.rows[scan.stagePos]?

/-- Keep the stage primed. -/
def prime (scan : QuadScan) : Except StoreError QuadScan :=
  if scan.baseDone = false ∧ scan.stage.len ≤ scan.stagePos then do
    let (more, base, stage) ← scan.base.nextBatch scan.stage
    return { scan with base := base, stage := stage, stagePos := 0, baseDone := !more }
  else .ok scan

def takeBase (scan : QuadScan) (q : QuadKey) (out : QuadBatch) : QuadScan × QuadBatch :=
  ({ scan with stagePos := scan.stagePos + 1 }, out.push q)

def takeDelta (scan : QuadScan) (e : QuadKey × DeltaKind) (out : QuadBatch) :
    QuadScan × QuadBatch :=
  ({ scan with dpos := scan.dpos + 1 }, if e.2 = .add then out.push e.1 else out)

/-- One step of the zipper; where both have a quad the delta decides. -/
def advance (scan : QuadScan) (out : QuadBatch) : Option (QuadScan × QuadBatch) :=
  match scan.stageKey, scan.delta[scan.dpos]? with
  | none, none => none
  | some q, none => some (scan.takeBase q out)
  | none, some e => some (scan.takeDelta e out)
  | some q, some e =>
      if scan.order.scanKey q < scan.order.scanKey e.1 then some (scan.takeBase q out)
      else if scan.order.scanKey e.1 < scan.order.scanKey q then some (scan.takeDelta e out)
      else some ({ scan with stagePos := scan.stagePos + 1 }.takeDelta e out)

/-- What is left of the batch and of the delta. -/
def room (scan : QuadScan) (out : QuadBatch) : Nat :=
  (out.capacity - out.len) + (scan.delta.length - scan.dpos)

theorem room_takeBase {scan : QuadScan} {q : QuadKey} {out : QuadBatch}
    (free : out.len < out.capacity) :
    (scan.takeBase q out).1.room (scan.takeBase q out).2 < scan.room out := by
  simp only [takeBase, room, QuadBatch.push, QuadBatch.len, List.length_append, List.length_singleton]
  simp only [QuadBatch.len] at free
  omega

theorem room_takeDelta {scan : QuadScan} {e : QuadKey × DeltaKind} {out : QuadBatch}
    (here : scan.delta[scan.dpos]? = some e) :
    (scan.takeDelta e out).1.room (scan.takeDelta e out).2 < scan.room out := by
  have bound := (List.getElem?_eq_some_iff.mp here).1
  have keep : out.capacity - out.len ≥ (if e.2 = .add then out.push e.1 else out).capacity -
      (if e.2 = .add then out.push e.1 else out).len := by
    split
    · simp only [QuadBatch.push, QuadBatch.len, List.length_append, List.length_singleton]
      omega
    · exact le_refl _
  simp only [takeDelta, room]
  omega

theorem room_advance {scan : QuadScan} {out : QuadBatch} {next : QuadScan × QuadBatch}
    (free : out.len < out.capacity) (h : scan.advance out = some next) :
    next.1.room next.2 < scan.room out := by
  unfold advance at h
  split at h
  · cases h
  · cases h
    exact room_takeBase free
  · rename_i e here
    cases h
    exact room_takeDelta here
  · rename_i q e stage here
    split at h
    · cases h
      exact room_takeBase free
    · split at h
      · cases h
        exact room_takeDelta here
      · cases h
        exact @room_takeDelta { scan with stagePos := scan.stagePos + 1 } e out here

theorem room_prime {scan scan' : QuadScan} {out : QuadBatch} (h : scan.prime = .ok scan') :
    scan'.room out = scan.room out := by
  unfold prime at h
  split at h
  · cases run : scan.base.nextBatch scan.stage with
    | error e =>
        rw [run] at h
        cases h
    | ok r =>
        rw [run] at h
        cases h
        rfl
  · cases h
    rfl

/-- Zip until the batch is full or both sides are done. -/
def fill (scan : QuadScan) (out : QuadBatch) : Except StoreError (QuadScan × QuadBatch) :=
  if _free : out.len < out.capacity then
    match _primed : scan.prime with
    | .error e => .error e
    | .ok scan' =>
        match _step : scan'.advance out with
        | none => .ok (scan', out)
        | some next => fill next.1 next.2
  else .ok (scan, out)
termination_by scan.room out
decreasing_by
  rw [← room_prime _primed]
  exact room_advance _free _step

/-- Fill the batch with the next quads, up to its capacity; false when there are none. -/
def nextBatch (scan : QuadScan) (out : QuadBatch) :
    Except StoreError (Bool × QuadScan × QuadBatch) := do
  let (scan, out) ← scan.fill out.clear
  return (!out.rows.isEmpty, scan, out)

/-- The batches of a scan, drained with a batch of the given capacity. -/
inductive Yields (capacity : Nat) : QuadScan → List (List QuadKey) → Prop where
  | done {scan scan' : QuadScan} {out : QuadBatch}
      (step : scan.nextBatch (QuadBatch.withCapacity capacity) = .ok (false, scan', out)) :
      Yields capacity scan []
  | more {scan scan' : QuadScan} {out : QuadBatch} {batches : List (List QuadKey)}
      (step : scan.nextBatch (QuadBatch.withCapacity capacity) = .ok (true, scan', out))
      (rest : Yields capacity scan' batches) : Yields capacity scan (out.rows :: batches)

end QuadScan

/-- Scan a pattern in an order: the base under the delta. -/
def Snapshot.scan (snap : Snapshot) (pat : Pattern) (order : Order) : Except StoreError QuadScan :=
  match snap.base.scanOrder pat order with
  | .error e => .error e
  | .ok base => .ok {
      order := order
      base := base
      stage := QuadBatch.withCapacity QuadBatch.batchCapacity
      stagePos := 0
      baseDone := false
      delta := snap.delta.collectRange order pat snap.epoch
      dpos := 0 }

end Graphy
