import Graphy.Store.PackedBt
import Graphy.Store.Scan

/-!
# Exact and estimated counts

The exact count of a pattern avoids enumeration where the pattern's bound components
are a prefix of a materialized ordering, and drains a scan otherwise; the delta's
decisions correct it.  The estimate adds the size of the delta's range instead.  A
failed expectation or a difference below zero gives nothing.
-/

namespace Graphy

open BitVector

/-! ## Draining a segment scan -/

theorem FoqP.left_of_none {spo : Bt} {foq : Foq} {c : FoqP} (h : (c.next spo foq).1 = none) :
    (Source.foqP spo foq (c.next spo foq).2).left = (Source.foqP spo foq c).left ∨
      Less (Source.foqP spo foq (c.next spo foq).2).left (Source.foqP spo foq c).left := by
  induction c using FoqP.next.induct spo foq with
  | case1 c here =>
      rw [FoqP.next, if_pos here] at h
      cases h
  | case2 c done here yi ih =>
      rw [FoqP.next, if_neg done, if_pos here] at h ⊢
      right
      have step : Less (Source.foqP spo foq { c with
          k := c.k + 1
          s := spo.xValue (spo.groupOfY yi)
          zi := (spo.zRange yi).1
          zEnd := (spo.zRange yi).2 }).left (Source.foqP spo foq c).left :=
        Prod.Lex.right _ (Prod.Lex.left _ _ (Nat.sub_lt_sub_left here (Nat.lt_succ_self _)))
      rcases ih h with same | less
      · exact same ▸ step
      · exact less_trans less step
  | case3 c done none_ more ih =>
      rw [FoqP.next, if_neg done, if_neg none_, if_pos more] at h ⊢
      right
      have step : Less (Source.foqP spo foq { c with
          p := c.p + 1
          k := 0
          kEnd := foq.wp.rank (c.p + 1) foq.wp.len }).left (Source.foqP spo foq c).left :=
        Prod.Lex.left _ _ (by simp only; omega)
      rcases ih h with same | less
      · exact same ▸ step
      · exact less_trans less step
  | case4 c done none_ last =>
      rw [FoqP.next, if_neg done, if_neg none_, if_neg last]
      rcases Nat.lt_or_ge c.p c.pEnd with below | above
      · exact Or.inr (Prod.Lex.left _ _ (Nat.sub_lt_sub_left below (Nat.lt_succ_self _)))
      · left
        simp only [Source.left, Nat.sub_eq_zero_of_le above,
          Nat.sub_eq_zero_of_le (Nat.le_succ_of_le above)]

theorem FoqO.left_of_none {spo : Bt} {foq : Foq} {c : FoqO} (h : (c.next spo foq).1 = none) :
    (Source.foqO spo foq (c.next spo foq).2).left = (Source.foqO spo foq c).left ∨
      Less (Source.foqO spo foq (c.next spo foq).2).left (Source.foqO spo foq c).left := by
  induction c using FoqO.next.induct spo foq with
  | case1 c here =>
      rw [FoqO.next, if_pos here] at h
      cases h
  | case2 c done more r rEnd run ih =>
      rw [FoqO.next, if_neg done, if_pos more, run] at h ⊢
      right
      have step : Less (Source.foqO spo foq { c with
          j := c.j + 1
          o := foq.xo.getD (c.j + 1) (Col.dict 0)
          r := r
          rEnd := rEnd }).left (Source.foqO spo foq c).left :=
        Prod.Lex.left _ _ (by simp only; omega)
      rcases ih h with same | less
      · exact same ▸ step
      · exact less_trans less step
  | case3 c done last =>
      rw [FoqO.next, if_neg done, if_neg last]
      rcases Nat.lt_or_ge c.j c.jEnd with below | above
      · exact Or.inr (Prod.Lex.left _ _ (Nat.sub_lt_sub_left below (Nat.lt_succ_self _)))
      · left
        simp only [Source.left, Nat.sub_eq_zero_of_le above,
          Nat.sub_eq_zero_of_le (Nat.le_succ_of_le above)]

/-- A source that has ended has no more to walk than before. -/
theorem Source.left_of_none {order : Order} {source source' : Source}
    (h : source.next order = (none, source')) :
    source'.left = source.left ∨ Less source'.left source.left := by
  cases source with
  | range bt iter =>
      simp only [Source.next, Bt.BtSeqIter.next] at h
      split at h
      · rename_i here
        split at here
        · obtain ⟨-, rfl⟩ := Prod.mk.inj here
          obtain ⟨-, rfl⟩ := Prod.mk.inj h
          exact Or.inl rfl
        · cases here
      · cases h
  | foqP spo foq c =>
      obtain ⟨first, rfl⟩ := Prod.mk.inj h
      exact FoqP.left_of_none (Option.map_eq_none_iff.mp first)
  | foqO spo foq c =>
      obtain ⟨first, rfl⟩ := Prod.mk.inj h
      exact FoqO.left_of_none (Option.map_eq_none_iff.mp first)

namespace SegmentScan

/-- Graphs of the suspended triple not emitted yet. -/
def fanLeft (scan : SegmentScan) : Nat := scan.fanOut.elim 0 fun f => f.qEnd - f.qi

theorem emitFanOut_left {graphs : Graphs} {scan : SegmentScan} (idle : scan.fanOut = none)
    (f : FanOut) (out : QuadBatch) :
    (scan.emitFanOut graphs f out).1.source = scan.source ∧
      (scan.emitFanOut graphs f out).1.fanLeft + (scan.emitFanOut graphs f out).2.len =
        (f.qEnd - f.qi) + out.len := by
  induction h : f.qEnd - f.qi generalizing f out with
  | zero =>
      rw [emitFanOut, if_neg (by omega)]
      simp [fanLeft, idle]
  | succ n ih =>
      rw [emitFanOut, if_pos (by omega)]
      split
      · simp [fanLeft, h]
      · obtain ⟨source, left⟩ := ih { f with qi := f.qi + 1 }
          (out.push (f.t.inGraph (Col.dict (graphs.tg.access f.qi)))) (by simp only; omega)
        refine ⟨source, left.trans ?_⟩
        simp only [QuadBatch.push, QuadBatch.len, List.length_append, List.length_singleton]
        omega

theorem drainFanOut_left (scan : SegmentScan) {out : QuadBatch} (empty : out.len = 0) :
    (scan.drainFanOut out).1.source = scan.source ∧
      (scan.drainFanOut out).1.fanLeft + (scan.drainFanOut out).2.len = scan.fanLeft := by
  rw [drainFanOut]
  split
  · rename_i f graphs pending layer
    have left := @emitFanOut_left graphs { scan with fanOut := none } rfl f out
    rw [empty, Nat.add_zero] at left
    simpa only [fanLeft, pending, Option.elim_some] using left
  · exact ⟨rfl, by rw [empty]; rfl⟩

/-- Filling a batch moves the source on, or leaves the batch as it is. -/
theorem fill_left {scan scan' : SegmentScan} {out out' : QuadBatch}
    (h : scan.fill out = .ok (scan', out')) :
    Less scan'.source.left scan.source.left ∨
      (scan'.source.left = scan.source.left ∧ scan'.fanLeft = scan.fanLeft ∧ out' = out) := by
  induction scan, out using fill.induct with
  | case1 scan out full =>
      rw [fill, if_pos full] at h
      obtain ⟨rfl, rfl⟩ := Prod.mk.inj (Except.ok.inj h)
      exact Or.inr ⟨rfl, rfl, rfl⟩
  | case2 scan out room source stop =>
      rw [fill, if_neg room] at h
      split at h
      · rename_i source' found
        rw [stop] at found
        obtain ⟨-, rfl⟩ := Prod.mk.inj found
        obtain ⟨rfl, rfl⟩ := Prod.mk.inj (Except.ok.inj h)
        rcases Source.left_of_none stop with same | less
        · exact Or.inr ⟨same, rfl, rfl⟩
        · exact Or.inl less
      · rename_i found
        rw [stop] at found
        cases found
  | case3 scan out room t hint source step e failed =>
      rw [fill, if_neg room] at h
      split at h
      · rename_i found
        rw [step] at found
        cases found
      · rename_i found
        rw [step] at found
        cases found
        rw [failed] at h
        cases h
  | case4 scan out room t hint source step mid out₁ run ih =>
      rw [fill, if_neg room] at h
      split at h
      · rename_i found
        rw [step] at found
        cases found
      · rename_i found
        rw [step] at found
        cases found
        rw [run] at h
        have less := Source.next_less step
        rcases ih h with below | ⟨same, -, -⟩
        · exact Or.inl (less_trans below less)
        · rw [same]
          exact Or.inl less

/-- What a scan still has to walk. -/
def left (scan : SegmentScan) : (Nat × Nat × Nat) × Nat := (scan.source.left, scan.fanLeft)

/-- A batch with rows in it leaves less to walk. -/
theorem nextBatch_left {scan scan' : SegmentScan} {out out' : QuadBatch}
    (h : scan.nextBatch out = .ok (true, scan', out')) :
    Prod.Lex (Prod.Lex (· < ·) (Prod.Lex (· < ·) (· < ·))) (· < ·) scan'.left scan.left := by
  rw [nextBatch] at h
  obtain ⟨source, fan⟩ := scan.drainFanOut_left (show out.clear.len = 0 from rfl)
  generalize scan.drainFanOut out.clear = drained at h source fan
  obtain ⟨mid, out₁⟩ := drained
  change (mid.fill out₁).bind _ = _ at h
  cases run : mid.fill out₁ with
  | error e =>
      rw [run] at h
      cases h
  | ok r =>
      rw [run] at h
      obtain ⟨rows, rest⟩ := Prod.mk.inj (Except.ok.inj h)
      obtain ⟨rfl, rfl⟩ := Prod.mk.inj rest
      have moved := @fill_left mid r.1 out₁ r.2 run
      simp only at source fan
      rw [source] at moved
      rcases moved with less | ⟨same, fans, batch⟩
      · exact Prod.Lex.left _ _ less
      · have some_ : 0 < out₁.len := by
          rw [batch] at rows
          rw [QuadBatch.len, List.length_pos_iff]
          rintro nil
          rw [nil] at rows
          cases rows
        rw [left, left, same, fans]
        exact Prod.Lex.right _ (by omega)

/-- The rows of a scan, batch by batch. -/
def drain (scan : SegmentScan) (batch : QuadBatch) : Except StoreError (List QuadKey) :=
  match _h : scan.nextBatch batch with
  | .error e => .error e
  | .ok (false, _, _) => .ok []
  | .ok (true, scan', batch') =>
      match drain scan' batch' with
      | .error e => .error e
      | .ok rows => .ok (batch'.rows ++ rows)
termination_by scan.left
decreasing_by exact nextBatch_left _h

end SegmentScan

/-! ## Choosing an order -/

/-- Length of the pattern's bound prefix in an order. -/
def Pattern.prefixLen (pat : Pattern) (order : Order) : Nat :=
  let bound := order.toXyz ⟨flag pat.s, flag pat.p, flag pat.o⟩
  ([bound.x, bound.y, bound.z].takeWhile fun b => decide (b = Col.dict 1)).length

/-- Number of bound components of the triple. -/
def Pattern.bound (pat : Pattern) : Nat := [pat.s, pat.p, pat.o].countP Option.isSome

/-- The last of the elements with the largest key. -/
def maxByKey {α : Type} (key : α → Nat) : List α → Option α
  | [] => none
  | a :: as => some (as.foldl (fun best b => if key best ≤ key b then b else best) a)

namespace Segment

/-- The materialized ordering with the longest bound prefix. -/
def bestOrder (seg : Segment) (pat : Pattern) : Option (Order × Bt) :=
  maxByKey (fun e => pat.prefixLen e.1) seg.orderings

/-- The scan order with the cheapest access: any materialized prefix beats a bound
object through the object index, which beats a bound predicate through the wavelet
matrix. -/
def bestScanOrder (seg : Segment) (pat : Pattern) : Option Order :=
  (seg.bestOrder pat).map fun e =>
    let best := (pat.prefixLen e.1 * 4, e.1)
    match seg.foq with
    | none => best.2
    | some _ =>
        ([(3, Order.osp, pat.o.isSome), (2, Order.pso, pat.p.isSome)].foldl
          (fun best c =>
            if c.2.2 = true ∧ best.1 < c.1 ∧ seg.orderingBt c.2.1 = none then (c.1, c.2.1) else best)
          best).2

/-- All matching quads in the cheapest order. -/
def scan (seg : Segment) (pat : Pattern) : Option (Except StoreError (List QuadKey)) :=
  (seg.bestScanOrder pat).map fun order =>
    match seg.scanOrder pat order with
    | .error e => .error e
    | .ok scan => scan.drain (QuadBatch.withCapacity QuadBatch.batchCapacity)

end Segment

/-! ## Counting in a segment -/

namespace Graphs

/-- The ordinals of a graph's triples. -/
def bitmap (graphs : Graphs) (g : Col) : Option (List Nat) :=
  if g.tag = 0 then graphs.at_[g.payload]? else none

/-- Elements up to `v`. -/
def rank (bm : List Nat) (v : Nat) : Nat := bm.countP fun i => decide (i ≤ v)

/-- Elements in `[lo, hi)`, by rank. -/
def treemapRangeCardinality (bm : List Nat) (lo hi : Nat) : Option Nat :=
  if hi = 0 ∨ hi ≤ lo then some 0
  else checkedSub (rank bm (hi - 1)) (if lo = 0 then 0 else rank bm (lo - 1))

/-- Number of quads of the triples `[lo, hi)`. -/
def quadCount (graphs : Graphs) (lo hi : Nat) : Option Nat :=
  checkedSub (graphs.quadRangeStart hi) (graphs.quadRangeStart lo)

end Graphs

/-- Ordinal range of a prefix-bound pattern. -/
def countRange (bt : Bt) (pat : Pattern) (order : Order) : Nat × Nat :=
  let zero := Col.dict 0
  let want := order.toXyz ⟨pat.s.getD zero, pat.p.getD zero, pat.o.getD zero⟩
  match pat.prefixLen order with
  | 0 => (0, bt.nTriples)
  | 1 =>
      match bt.xGroup want.x with
      | none => (0, 0)
      | some g => bt.zRangeOfGroup g
  | 2 =>
      match (bt.xGroup want.x).bind fun g => bt.findY g want.y with
      | none => (0, 0)
      | some yi => bt.zRange yi
  | _ =>
      match ((bt.xGroup want.x).bind fun g => bt.findY g want.y).bind fun yi =>
          bt.findZ yi want.z with
      | none => (0, 0)
      | some i => (i, i + 1)

/-- Quads at a stretch of a secondary ordering, each triple probed by its SPO ordinal. -/
def probeCount (graphs : Graphs) (bt : Bt) (g : Option Col) (lo hi : Nat) : Option Nat :=
  (List.range' lo (hi - lo)).foldlM (fun n i => do
    let ord ← bt.spoAt i
    match g with
    | none => return n + (← graphs.quadCount ord (ord + 1))
    | some g => return n + ((graphs.bitmap g).any fun bm => bm.contains ord).toNat) 0

namespace Segment

/-- The object of a pattern that binds nothing else, where the object index answers. -/
def objectOnly (seg : Segment) (pat : Pattern) : Option (Foq × Col) :=
  match seg.foq, pat, seg.graphs with
  | some foq, ⟨none, none, some o, none⟩, none => some (foq, o)
  | _, _, _ => none

/-- Count of a pattern whose bound components are a prefix of the ordering. -/
def prefixCount (seg : Segment) (pat : Pattern) (order : Order) (bt : Bt)
    (scanned : Option (Except StoreError Nat)) : Option (Except StoreError Nat) :=
  let (lo, hi) := countRange bt pat order
  match pat.g, seg.graphs with
  | none, none => (checkedSub hi lo).map .ok
  | some g, none => if g = Col.dict 0 then (checkedSub hi lo).map .ok else some (.ok 0)
  | g, some graphs =>
      if order = .spo then
        match g with
        | none => (graphs.quadCount lo hi).map .ok
        | some g =>
            match graphs.bitmap g with
            | none => some (.ok 0)
            | some bm => (Graphs.treemapRangeCardinality bm lo hi).map .ok
      else if bt.pz.isNone then scanned
      else (probeCount graphs bt g lo hi).map .ok

/-- Exact count.  Patterns whose bound components are a prefix avoid enumeration; the
others fall back to a scan. -/
def count (seg : Segment) (pat : Pattern) : Option (Except StoreError Nat) :=
  let scanned : Option (Except StoreError Nat) :=
    (seg.scan pat).map fun rows => rows.map List.length
  match seg.objectOnly pat with
  | some (foq, o) =>
      match foq.locateObject o with
      | none => some (.ok 0)
      | some j => (checkedSub (foq.objectRun j).2 (foq.objectRun j).1).map .ok
  | none =>
      match seg.bestOrder pat with
      | none => none
      | some (order, bt) =>
          if pat.prefixLen order < pat.bound then scanned
          else seg.prefixCount pat order bt scanned

end Segment

/-! ## Counting in a snapshot -/

/-- Upper bound of the entries that match a pattern: the size of its range where the bound
components clip it, every event otherwise. -/
def Delta.estimateRange (d : Delta) (order : Order) (pat : Pattern) : Option Nat :=
  (d.index order).map fun m =>
    let plan := rangePlan order pat
    if plan.hi.isNone then d.events
    else (m.range plan.lo plan.hi).countP fun e => plan.admits e.1

namespace Snapshot

/-- The count after one decision of the delta. -/
def adjust (snap : Snapshot) (n : Nat) (e : QuadKey × DeltaKind) : Option Nat :=
  match e.2, snap.base.containsQuad e.1 with
  | .add, false => some (n + 1)
  | .tombstone, true => checkedSub n 1
  | _, _ => some n

/-- Exact match count: the base count adjusted by the delta's effective events, each
checked against base membership. -/
def count (snap : Snapshot) (pat : Pattern) : Option (Except StoreError Nat) :=
  match snap.base.count pat with
  | none => none
  | some (.error e) => some (.error e)
  | some (.ok n) =>
      match snap.base.bestScanOrder pat with
      | none => none
      | some order =>
          ((snap.delta.collectRange order pat snap.epoch).foldlM snap.adjust n).map .ok

/-- Cheap upper bound of the match count. -/
def countEstimate (snap : Snapshot) (pat : Pattern) : Option (Except StoreError Nat) :=
  match snap.base.count pat with
  | none => none
  | some (.error e) => some (.error e)
  | some (.ok n) =>
      match snap.base.bestScanOrder pat with
      | none => none
      | some order => (snap.delta.estimateRange order pat).map fun extra => .ok (n + extra)

end Snapshot

end Graphy
