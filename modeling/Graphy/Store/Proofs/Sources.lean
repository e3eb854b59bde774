import Graphy.Store.Scan
import Graphy.Store.Proofs.Segment

/-!
# What the sources of a scan yield

A source yields a list when calling `next` over and over gives its elements.  A
range yields the triples of its ordinals; an accessor yields, predicate by
predicate or object by object, the triples of its runs.
-/

namespace Graphy

open BitVector

/-- However often `next` is called, it gives nothing. -/
def Source.Ended (order : Order) (source : Source) : Prop :=
  ∃ ended : Source → Prop, ended source ∧
    ∀ s, ended s → ∃ s', s.next order = (none, s') ∧ ended s'

theorem Source.Ended.next {order : Order} {source : Source} (h : source.Ended order) :
    ∃ source', source.next order = (none, source') ∧ source'.Ended order := by
  obtain ⟨ended, here, stays⟩ := h
  obtain ⟨source', step, there⟩ := stays source here
  exact ⟨source', step, ended, there, stays⟩

/-- Calling `next` until it gives nothing gives these triples. -/
inductive Source.Yields (order : Order) : Source → List (TripleKey × Option Nat) → Prop where
  | done {source : Source} (ended : source.Ended order) : Yields order source []
  | more {source source' : Source} {e : TripleKey × Option Nat}
      {es : List (TripleKey × Option Nat)} (step : source.next order = (some e, source'))
      (rest : Yields order source' es) : Yields order source (e :: es)

/-! ## Ranges of a materialized ordering -/

namespace Bt

/-- The iterator stands at the run of ordinal `j`, the one it is at or the one before. -/
structure IterAt (bt : Bt) (it : BtSeqIter) (j : Nat) : Prop where
  near : it.i = j ∨ it.i = j + 1
  yi : it.yi = rank1 bt.by_ (j + 1) - 1
  runEnd : it.runEnd = bt.nextRunStart (j + 1)
  g : it.g = rank1 bt.bx (it.yi + 1) - 1
  groupEndYi : it.groupEndYi = bt.nextGroupStart (it.yi + 1)
  x : it.x = bt.xValue it.g
  y : it.y = bt.yAt it.yi

theorem iterAt_seqRange (bt : Bt) {lo hi : Nat} (h : lo < hi) :
    bt.IterAt (bt.seqRange lo hi) lo := by
  have eq : bt.seqRange lo hi = _ := if_neg (Nat.not_le.mpr h)
  rw [eq]
  exact ⟨Or.inl rfl, rfl, rfl, rfl, rfl, rfl, rfl⟩

namespace Represents

variable {bt : Bt} {T : List Xyz} (rep : bt.Represents T)
include rep

theorem length_by : bt.by_.length = T.length := by
  rw [rep.by_]
  exact length_runMarks none T

theorem length_bx : bt.bx.length = bt.sy.length := by
  rw [rep.bx, rep.length_sy]
  exact length_runMarks none _

theorem rank_by_pos {j : Nat} (h : j < T.length) :
    0 < rank1 bt.by_ (j + 1) ∧ rank1 bt.by_ (j + 1) - 1 < bt.sy.length := by
  rcases runHeads_rank1 Xyz.xy none T j _ (List.getElem?_eq_getElem h) with ⟨-, e⟩ | ⟨r, get, -, pos⟩
  · cases e
  · rw [rep.by_, rep.length_sy]
    exact ⟨pos, (List.getElem?_eq_some_iff.mp get).1⟩

theorem rank_bx_pos {yi : Nat} (h : yi < bt.sy.length) : 0 < rank1 bt.bx (yi + 1) := by
  rw [rep.length_sy] at h
  rcases runHeads_rank1 Xyz.x none (pairs T) yi _ (List.getElem?_eq_getElem h) with
    ⟨-, e⟩ | ⟨r, get, -, pos⟩
  · cases e
  · rw [rep.bx]
    exact pos

theorem nextRunStart_eq (j : Nat) : bt.nextRunStart j = (nextOne bt.by_ j).getD bt.by_.length := by
  rw [nextRunStart, rep.length_sz, rep.length_by]

theorem nextGroupStart_eq (yi : Nat) :
    bt.nextGroupStart yi = (nextOne bt.bx yi).getD bt.bx.length := by
  rw [nextGroupStart, rep.length_bx]

/-- Entering the run that starts at the current ordinal. -/
theorem iterAt_enterRun {it : BtSeqIter} {j : Nat} (at_ : bt.IterAt it j) (h : it.i < T.length)
    (ended : it.runEnd ≤ it.i) : bt.IterAt (it.enterRun bt) it.i := by
  have bound : j + 1 ≤ bt.by_.length := by
    rw [rep.length_by]
    rcases at_.near with eq | eq <;> omega
  have next : it.i = j + 1 := by
    have beyond := le_nextOne bound
    rw [← rep.nextRunStart_eq, ← at_.runEnd] at beyond
    rcases at_.near with eq | eq <;> omega
  have fresh : rank1 bt.by_ (j + 1 + 1) = rank1 bt.by_ (j + 1) + 1 := by
    rcases @nextOne_cases bt.by_ (j + 1) (by rw [rep.length_by]; omega) with
      ⟨-, rank⟩ | ⟨-, -, later⟩
    · exact rank
    · rw [← rep.nextRunStart_eq, ← at_.runEnd] at later
      omega
  have pos := (rep.rank_by_pos (j := j) (by omega)).1
  have inside := (rep.rank_by_pos (j := j + 1) (by omega)).2
  have yi : it.yi + 1 = rank1 bt.by_ (it.i + 1) - 1 := by
    rw [at_.yi, next]
    omega
  have bound' : it.yi + 1 < bt.sy.length := by
    rw [yi, next]
    exact inside
  have groupPos : 0 < rank1 bt.bx (it.yi + 1) := rep.rank_bx_pos (by omega)
  rcases @nextOne_cases bt.bx (it.yi + 1) (by rwa [rep.length_bx]) with
    ⟨here, rank⟩ | ⟨skip, rank, later⟩
  · rw [← rep.nextGroupStart_eq, ← at_.groupEndYi] at here
    have g : it.g + 1 = rank1 bt.bx (it.yi + 1 + 1) - 1 := by
      rw [at_.g]
      omega
    simp only [BtSeqIter.enterRun, if_pos (le_of_eq here)]
    exact ⟨Or.inl rfl, yi, rfl, g, rfl, rfl, rfl⟩
  · rw [← rep.nextGroupStart_eq] at later
    rw [← rep.nextGroupStart_eq, ← rep.nextGroupStart_eq, ← at_.groupEndYi] at skip
    rw [← at_.groupEndYi] at later
    have g : it.g = rank1 bt.bx (it.yi + 1 + 1) - 1 := by
      rw [at_.g]
      omega
    simp only [BtSeqIter.enterRun, if_neg (Nat.not_le.mpr later)]
    exact ⟨Or.inl rfl, yi, rfl, g, skip, at_.x, rfl⟩

/-- Moving on within a run. -/
theorem iterAt_stay {it : BtSeqIter} {j : Nat} (at_ : bt.IterAt it j) (h : it.i < T.length)
    (inside : it.i < it.runEnd) : bt.IterAt it it.i := by
  rcases at_.near with eq | eq
  · rwa [eq]
  · rcases @nextOne_cases bt.by_ (j + 1) (by rw [rep.length_by]; omega) with
      ⟨here, -⟩ | ⟨skip, rank, -⟩
    · rw [← rep.nextRunStart_eq, ← at_.runEnd] at here
      omega
    · rw [← rep.nextRunStart_eq, ← rep.nextRunStart_eq, ← at_.runEnd] at skip
      exact ⟨Or.inl rfl, by rw [at_.yi, eq, rank], by rw [skip, eq], at_.g, at_.groupEndYi, at_.x,
        at_.y⟩

/-- The iterator gives the triple of its ordinal and moves to the next. -/
theorem next_spec {it : BtSeqIter} {j : Nat} (at_ : bt.IterAt it j) (more : it.i < it.stop)
    (h : it.stop ≤ T.length) {t : Xyz} (ht : T[it.i]? = some t) :
    ∃ it', it.next bt = (some (it.i, t), it') ∧ bt.IterAt it' it.i ∧ it'.i = it.i + 1 ∧
      it'.stop = it.stop := by
  have entered : ∃ mid, (if it.runEnd ≤ it.i then it.enterRun bt else it) = mid ∧
      bt.IterAt mid it.i ∧ mid.i = it.i ∧ mid.stop = it.stop := by
    by_cases ended : it.runEnd ≤ it.i
    · refine ⟨_, if_pos ended, rep.iterAt_enterRun at_ (by omega) ended, ?_⟩
      simp only [BtSeqIter.enterRun]
      split <;> exact ⟨rfl, rfl⟩
    · exact ⟨_, if_neg ended, rep.iterAt_stay at_ (by omega) (by omega), rfl, rfl⟩
  obtain ⟨mid, eq, midAt, i, stop⟩ := entered
  have triple : (⟨mid.x, mid.y, bt.zAt it.i⟩ : Xyz) = t := by
    rw [midAt.x, midAt.y, midAt.g, midAt.yi]
    exact rep.tripleAt_eq ht
  refine ⟨{ mid with i := mid.i + 1 }, ?_, ⟨Or.inr (by rw [i]), midAt.yi, midAt.runEnd, midAt.g,
    midAt.groupEndYi, midAt.x, midAt.y⟩, by rw [i], stop⟩
  rw [BtSeqIter.next, if_neg (by omega), eq]
  simp only [i, triple]

end Represents

end Bt

/-- What a materialized ordering gives for an ordinal. -/
def Bt.row (bt : Bt) (order : Order) (i : Nat) : TripleKey × Option Nat :=
  (order.toSpo (bt.tripleAt i), if order = .spo then some i else bt.spoAt i)

namespace Source

theorem ended_range {order : Order} {bt : Bt} {it : Bt.BtSeqIter} (h : it.stop ≤ it.i) :
    (Source.range bt it).Ended order := by
  refine ⟨fun s => s = .range bt it, rfl, ?_⟩
  rintro _ rfl
  refine ⟨_, ?_, rfl⟩
  rw [next, Bt.BtSeqIter.next, if_pos h]

theorem yields_iter {bt : Bt} {T : List Xyz} (rep : bt.Represents T) (order : Order) (n : Nat)
    {it : Bt.BtSeqIter} {j : Nat} (at_ : bt.IterAt it j) (left : it.stop - it.i = n)
    (h : it.stop ≤ T.length) :
    Yields order (.range bt it) ((List.range' it.i n).map (bt.row order)) := by
  induction n generalizing it j with
  | zero => exact .done (ended_range (by omega))
  | succ n ih =>
      have get := List.getElem?_eq_getElem (show it.i < T.length by omega)
      obtain ⟨it', step, at', i, stop⟩ := rep.next_spec at_ (by omega) h get
      have rest := ih at' (by omega) (by omega)
      rw [i] at rest
      rw [List.range'_succ, List.map_cons]
      refine .more ?_ rest
      rw [next, step]
      simp only [Bt.row, rep.tripleAt_eq get]

/-- A range yields the triples of its ordinals. -/
theorem yields_range {bt : Bt} {T : List Xyz} (rep : bt.Represents T) (order : Order) {lo hi : Nat}
    (h : hi ≤ T.length) :
    Yields order (.range bt (bt.seqRange lo hi)) ((List.range' lo (hi - lo)).map (bt.row order)) := by
  by_cases empty : hi ≤ lo
  · rw [Nat.sub_eq_zero_of_le empty]
    refine .done (ended_range ?_)
    rw [Bt.seqRange, if_pos empty]
  · have lt := Nat.not_le.mp empty
    have i : (bt.seqRange lo hi).i = lo ∧ (bt.seqRange lo hi).stop = hi := by
      rw [Bt.seqRange, if_neg empty]
      exact ⟨rfl, rfl⟩
    have all := yields_iter rep order (hi - lo) (Bt.iterAt_seqRange bt lt)
      (by rw [i.1, i.2]) (by rw [i.2]; exact h)
    rwa [i.1] at all

/-- A source whose `next` takes from the front of a list yields the list. -/
theorem yields_of_rest {σ : Type} {order : Order} (embed : σ → Source)
    (rest : σ → List (TripleKey × Option Nat))
    (spec : ∀ c, ∃ c', (embed c).next order = ((rest c).head?, embed c') ∧ rest c' = (rest c).tail)
    (c : σ) : Yields order (embed c) (rest c) := by
  generalize shape : rest c = es
  induction es generalizing c with
  | nil =>
      refine .done ⟨fun s => ∃ c, rest c = [] ∧ s = embed c, ⟨c, shape, rfl⟩, ?_⟩
      rintro _ ⟨c, empty, rfl⟩
      obtain ⟨c', step, tail⟩ := spec c
      rw [empty] at step tail
      exact ⟨_, step, c', tail, rfl⟩
  | cons e es ih =>
      obtain ⟨c', step, tail⟩ := spec c
      rw [shape] at step tail
      exact .more step (ih c' tail)

end Source

/-! ## The P-accessor -/

theorem range'_of_lt {a b : Nat} (h : a < b) :
    List.range' a (b - a) = a :: List.range' (a + 1) (b - (a + 1)) := by
  obtain ⟨n, hn⟩ : ∃ n, b - a = n + 1 := ⟨b - a - 1, by omega⟩
  rw [hn, List.range'_succ]
  congr 2
  omega

namespace FoqP

/-- The triples of a stretch of ordinals, shown under a predicate. -/
def run (spo : Bt) (p : Nat) (s : Col) (zi zEnd : Nat) : List (TripleKey × Nat) :=
  (List.range' zi (zEnd - zi)).map fun i => (⟨s, Col.dict p, spo.zAt i⟩, i)

/-- The run of the `k`-th occurrence of a predicate. -/
def occurrence (spo : Bt) (foq : Foq) (p k : Nat) : List (TripleKey × Nat) :=
  let yi := (foq.wp.select p k).getD 0
  run spo p (spo.xValue (spo.groupOfY yi)) (spo.zRange yi).1 (spo.zRange yi).2

/-- The runs of a predicate from its `k`-th occurrence on. -/
def occurrences (spo : Bt) (foq : Foq) (p k kEnd : Nat) : List (TripleKey × Nat) :=
  (List.range' k (kEnd - k)).flatMap (occurrence spo foq p)

/-- The runs of the predicates from `p` on. -/
def predicates (spo : Bt) (foq : Foq) (p pEnd : Nat) : List (TripleKey × Nat) :=
  (List.range' p (pEnd - p)).flatMap fun p => occurrences spo foq p 0 (foq.wp.rank p foq.wp.len)

/-- What is left to give. -/
def rest (spo : Bt) (foq : Foq) (c : FoqP) : List (TripleKey × Nat) :=
  run spo c.p c.s c.zi c.zEnd ++ (occurrences spo foq c.p c.k c.kEnd ++
    predicates spo foq (c.p + 1) c.pEnd)

theorem run_of_le {spo : Bt} {p : Nat} {s : Col} {zi zEnd : Nat} (h : zEnd ≤ zi) :
    run spo p s zi zEnd = [] := by
  rw [run, Nat.sub_eq_zero_of_le h]
  rfl

theorem occurrences_of_le {spo : Bt} {foq : Foq} {p k kEnd : Nat} (h : kEnd ≤ k) :
    occurrences spo foq p k kEnd = [] := by
  rw [occurrences, Nat.sub_eq_zero_of_le h]
  rfl

theorem predicates_of_le {spo : Bt} {foq : Foq} {p pEnd : Nat} (h : pEnd ≤ p) :
    predicates spo foq p pEnd = [] := by
  rw [predicates, Nat.sub_eq_zero_of_le h]
  rfl

theorem occurrences_of_lt {spo : Bt} {foq : Foq} {p k kEnd : Nat} (h : k < kEnd) :
    occurrences spo foq p k kEnd =
      occurrence spo foq p k ++ occurrences spo foq p (k + 1) kEnd := by
  rw [occurrences, range'_of_lt h, List.flatMap_cons]
  rfl

theorem predicates_of_lt {spo : Bt} {foq : Foq} {p pEnd : Nat} (h : p < pEnd) :
    predicates spo foq p pEnd = occurrences spo foq p 0 (foq.wp.rank p foq.wp.len) ++
      predicates spo foq (p + 1) pEnd := by
  rw [predicates, range'_of_lt h, List.flatMap_cons]
  rfl

theorem next_spec (spo : Bt) (foq : Foq) (c : FoqP) :
    (c.next spo foq).1 = (c.rest spo foq).head? ∧
      (c.next spo foq).2.rest spo foq = (c.rest spo foq).tail := by
  induction c using FoqP.next.induct spo foq with
  | case1 c here =>
      rw [FoqP.next, if_pos here, rest, run, range'_of_lt here]
      exact ⟨rfl, rfl⟩
  | case2 c done here yi ih =>
      rw [FoqP.next, if_neg done, if_pos here]
      have same : rest spo foq { c with
          k := c.k + 1
          s := spo.xValue (spo.groupOfY yi)
          zi := (spo.zRange yi).1
          zEnd := (spo.zRange yi).2 } = c.rest spo foq := by
        rw [rest, rest, run_of_le (Nat.not_lt.mp done), occurrences_of_lt here, List.nil_append,
          List.append_assoc]
        rfl
      rw [same] at ih
      exact ih
  | case3 c done none_ more ih =>
      rw [FoqP.next, if_neg done, if_neg none_, if_pos more]
      have same : rest spo foq { c with
          p := c.p + 1
          k := 0
          kEnd := foq.wp.rank (c.p + 1) foq.wp.len } = c.rest spo foq := by
        rw [rest, rest, run_of_le (Nat.not_lt.mp done), run_of_le (Nat.not_lt.mp done),
          occurrences_of_le (Nat.not_lt.mp none_), predicates_of_lt more]
        rfl
      rw [same] at ih
      exact ih
  | case4 c done none_ last =>
      have empty : c.rest spo foq = [] := by
        rw [rest, run_of_le (Nat.not_lt.mp done), occurrences_of_le (Nat.not_lt.mp none_),
          predicates_of_le (Nat.not_lt.mp last)]
        rfl
      have after : rest spo foq { c with p := c.p + 1 } = [] := by
        rw [rest, run_of_le (Nat.not_lt.mp done), occurrences_of_le (Nat.not_lt.mp none_),
          predicates_of_le (Nat.le_succ_of_le (Nat.not_lt.mp last))]
        rfl
      rw [FoqP.next, if_neg done, if_neg none_, if_neg last, empty]
      exact ⟨rfl, after⟩

end FoqP

theorem Source.yields_foqP (order : Order) (spo : Bt) (foq : Foq) (c : FoqP) :
    Yields order (.foqP spo foq c) ((c.rest spo foq).map fun e => (e.1, some e.2)) := by
  refine yields_of_rest (Source.foqP spo foq) (fun c => (c.rest spo foq).map _) ?_ c
  intro c
  obtain ⟨head, tail⟩ := c.next_spec spo foq
  refine ⟨(c.next spo foq).2, ?_, ?_⟩
  · rw [List.head?_map, ← head]
    rfl
  · rw [tail, List.map_tail]

/-! ## The O-accessor -/

namespace FoqO

/-- The triples of a stretch of the object index. -/
def run (spo : Bt) (foq : Foq) (o : Col) (r rEnd : Nat) : List (TripleKey × Nat) :=
  (List.range' r (rEnd - r)).map fun i =>
    (⟨(spo.tripleAt (foq.po.getD i 0)).x, (spo.tripleAt (foq.po.getD i 0)).y, o⟩, foq.po.getD i 0)

/-- The runs of the objects from index `j` on. -/
def objects (spo : Bt) (foq : Foq) (j jEnd : Nat) : List (TripleKey × Nat) :=
  (List.range' j (jEnd - j)).flatMap fun j =>
    run spo foq (foq.xo.getD j (Col.dict 0)) (foq.objectRun j).1 (foq.objectRun j).2

/-- What is left to give. -/
def rest (spo : Bt) (foq : Foq) (c : FoqO) : List (TripleKey × Nat) :=
  run spo foq c.o c.r c.rEnd ++ objects spo foq (c.j + 1) c.jEnd

theorem run_of_le {spo : Bt} {foq : Foq} {o : Col} {r rEnd : Nat} (h : rEnd ≤ r) :
    run spo foq o r rEnd = [] := by
  rw [run, Nat.sub_eq_zero_of_le h]
  rfl

theorem objects_of_le {spo : Bt} {foq : Foq} {j jEnd : Nat} (h : jEnd ≤ j) :
    objects spo foq j jEnd = [] := by
  rw [objects, Nat.sub_eq_zero_of_le h]
  rfl

theorem objects_of_lt {spo : Bt} {foq : Foq} {j jEnd : Nat} (h : j < jEnd) :
    objects spo foq j jEnd =
      run spo foq (foq.xo.getD j (Col.dict 0)) (foq.objectRun j).1 (foq.objectRun j).2 ++
        objects spo foq (j + 1) jEnd := by
  rw [objects, range'_of_lt h, List.flatMap_cons]
  rfl

theorem next_spec (spo : Bt) (foq : Foq) (c : FoqO) :
    (c.next spo foq).1 = (c.rest spo foq).head? ∧
      (c.next spo foq).2.rest spo foq = (c.rest spo foq).tail := by
  induction c using FoqO.next.induct spo foq with
  | case1 c here =>
      rw [FoqO.next, if_pos here, rest, run, range'_of_lt here]
      exact ⟨rfl, rfl⟩
  | case2 c done more r rEnd at_ ih =>
      rw [FoqO.next, if_neg done, if_pos more, at_]
      have same : rest spo foq { c with
          j := c.j + 1
          o := foq.xo.getD (c.j + 1) (Col.dict 0)
          r := r
          rEnd := rEnd } = c.rest spo foq := by
        rw [rest, rest, run_of_le (r := c.r) (Nat.not_lt.mp done), objects_of_lt more, at_]
        rfl
      rw [same] at ih
      exact ih
  | case3 c done last =>
      have empty : c.rest spo foq = [] := by
        rw [rest, run_of_le (Nat.not_lt.mp done), objects_of_le (Nat.not_lt.mp last)]
        rfl
      have after : rest spo foq { c with j := c.j + 1 } = [] := by
        rw [rest, run_of_le (Nat.not_lt.mp done),
          objects_of_le (Nat.le_succ_of_le (Nat.not_lt.mp last))]
        rfl
      rw [FoqO.next, if_neg done, if_neg last, empty]
      exact ⟨rfl, after⟩

end FoqO

theorem Source.yields_foqO (order : Order) (spo : Bt) (foq : Foq) (c : FoqO) :
    Yields order (.foqO spo foq c) ((c.rest spo foq).map fun e => (e.1, some e.2)) := by
  refine yields_of_rest (Source.foqO spo foq) (fun c => (c.rest spo foq).map _) ?_ c
  intro c
  obtain ⟨head, tail⟩ := c.next_spec spo foq
  refine ⟨(c.next spo foq).2, ?_, ?_⟩
  · rw [List.head?_map, ← head]
    rfl
  · rw [tail, List.map_tail]

end Graphy
