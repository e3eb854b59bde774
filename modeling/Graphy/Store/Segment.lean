import Graphy.Store.Dictionary
import Graphy.Store.Foq
import Mathlib.Data.List.Sort

/-!
# Segments

An immutable base segment: the dictionary, the materialized orderings, the graph
layer when there are named graphs, and the FoQ accessors on the compact profile.
`buildFromIds` is the builder from a finished dictionary and a stream of
column-value quads.
-/

namespace Graphy

open BitVector

/-- A scan pattern over column values. -/
structure Pattern where
  s : Option Col := none
  p : Option Col := none
  o : Option Col := none
  /-- `some 0` is the default graph only. -/
  g : Option Col := none
deriving DecidableEq, Repr

namespace QuadKey

def triple (q : QuadKey) : TripleKey := ⟨q.s, q.p, q.o⟩

def toPair (q : QuadKey) : Col ×ₗ Col ×ₗ Col ×ₗ Col := toLex (q.s, toLex (q.p, toLex (q.o, q.g)))

theorem toPair_injective : Function.Injective toPair := by
  intro a b h
  have h1 := toLex.injective h
  simp only [Prod.mk.injEq] at h1
  have h2 := toLex.injective h1.2
  simp only [Prod.mk.injEq] at h2
  have h3 := toLex.injective h2.2
  cases a
  cases b
  simp_all

instance : LinearOrder QuadKey := LinearOrder.lift' toPair toPair_injective

end QuadKey

/-- The graph layer, indexed by SPO ordinals. -/
structure Graphs where
  /-- Per graph column value, the ordinals of its triples. -/
  at_ : List (List Nat)
  /-- Marks the first quad of every triple. -/
  tgStarts : List Bool
  /-- Graph of every quad in SPO order. -/
  tg : WaveletMatrix
deriving DecidableEq, Repr

/-- Whether graph `g` holds the triple with the given ordinal. -/
def Graphs.member (graphs : Graphs) (g : Col) (ord : Nat) : Bool :=
  decide (g.tag = 0) && (graphs.at_[g.payload]?).any fun bm => bm.contains ord

structure Segment where
  dict : Dictionary
  orderings : List (Order × Bt)
  graphs : Option Graphs
  foq : Option Foq
deriving DecidableEq, Repr

namespace Segment

/-- The materialized ordering, if this segment has it. -/
def orderingBt (seg : Segment) (order : Order) : Option Bt :=
  (seg.orderings.find? (fun e => decide (e.1 = order))).map Prod.snd

/-- Scan orders this segment offers, the virtual ones of the FoQ accessors included. -/
def scanOrders (seg : Segment) : List Order :=
  let orders := seg.orderings.map Prod.fst
  match seg.foq with
  | none => orders
  | some _ => [Order.pso, Order.osp].foldl
      (fun orders o => if o ∈ orders then orders else orders ++ [o]) orders

/-- SPO ordinal of a triple. -/
def spoOrdinal (seg : Segment) (t : TripleKey) : Option Nat :=
  (seg.orderingBt .spo).bind fun spo =>
    ((spo.xGroup t.s).bind fun g => spo.findY g t.p).bind fun yi => spo.findZ yi t.o

/-- Whether the base contains this exact quad; out-of-range components are absent. -/
def containsQuad (seg : Segment) (q : QuadKey) : Bool :=
  if Col.dict seg.dict.nSubjects ≤ q.s ∨ Col.dict seg.dict.predicates.length ≤ q.p ∨
      Col.dict seg.dict.graphs.length < q.g then false
  else if q.o.tag = 0 ∧ Col.dict seg.dict.nObjects ≤ q.o then false
  else if q.o.tag = 7 ∧ seg.dict.ttRecords.length ≤ q.o.payload then false
  else
    match seg.spoOrdinal q.triple with
    | none => false
    | some ord =>
        match seg.graphs with
        | none => decide (q.g = Col.dict 0)
        | some graphs => graphs.member q.g ord

end Segment

/-! ## Building -/

/-- Index profile. -/
inductive Profile where
  | compact
  | balanced
  | covering
deriving DecidableEq, Repr

def Profile.orderings : Profile → List Order
  | .compact => [.spo]
  | .balanced => [.spo, .pos, .osp]
  | .covering => [.spo, .sop, .pos, .pso, .osp, .ops]

structure BuilderConfig where
  profile : Profile
  /-- Materialized orderings; `none` takes the profile's set. -/
  orderings : Option (List Order) := none
deriving DecidableEq, Repr

/-- Sorted and deduplicated: datasets are sets. -/
def sortDedup {α : Type} [LinearOrder α] (l : List α) : List α :=
  runHeads id none (l.insertionSort (· ≤ ·))

/-- The distinct triples of the sorted quads, in SPO order. -/
def triplesOf (quads : List QuadKey) : List Xyz :=
  runHeads id none (quads.map fun q => Order.spo.toXyz q.triple)

/-- Every sorted quad with the SPO ordinal of its triple; `n` triples came before. -/
@[grind =] def numbered : Option TripleKey → Nat → List QuadKey → List (QuadKey × Nat)
  | _, _, [] => []
  | last, n, q :: qs =>
      let n := if last = some q.triple then n else n + 1
      (q, n - 1) :: numbered (some q.triple) n qs

/-- Largest payload in a column. -/
def maxPayload (cols : List Col) : Nat := cols.foldl (fun m c => max m c.payload) 0

/-- The graph layer of the sorted quads. -/
def buildGraphs (quads : List QuadKey) : Graphs :=
  let maxG := maxPayload (quads.map QuadKey.g)
  { at_ := (List.range (maxG + 1)).map fun g =>
      ((numbered none 0 quads).filter fun e => decide (e.1.g = Col.dict g)).map Prod.snd
    tgStarts := runMarks id none (quads.map fun q => Order.spo.toXyz q.triple)
    tg := WaveletMatrix.new (quads.map fun q => q.g.payload) (max (bitsFor maxG) 1) }

/-- A secondary ordering, with the SPO ordinals as payload when asked for. -/
def sortOrdering (triples : List Xyz) (order : Order) (withPz : Bool) : Except String Bt := do
  let entries := triples.mapIdx fun i t => (toLex (order.toXyz (Order.spo.toSpo t), i) : Xyz ×ₗ Nat)
  let sorted := entries.insertionSort (· ≤ ·)
  let b ← (BtBuilder.new order.explicitX withPz).pushAll
    (sorted.map fun e => ((ofLex e).1, if withPz then some (ofLex e).2 else none))
  return b.finish

/-- Phases B to D of the builder and the checks at open: sort and deduplicate,
build the orderings, the graph layer when there are named graphs and the FoQ
accessors on the compact profile. -/
def buildFromIds (cfg : BuilderConfig) (dict : Dictionary) (source : List QuadKey) :
    Except String Segment := do
  let quads := sortDedup source
  let triples := triplesOf quads
  let spo ← (BtBuilder.new Order.spo.explicitX false).pushAll (triples.map fun t => (t, none))
  let spo := spo.finish
  let hasGraphs := quads.any fun q => decide (Col.dict 0 < q.g)
  let orders := cfg.orderings.getD cfg.profile.orderings
  let orderings ← orders.mapM fun order =>
    if order = .spo then pure (order, spo)
    else do return (order, ← sortOrdering triples order hasGraphs)
  if Order.spo ∉ orders then throw "segment lacks the SPO ordering"
  let objOrdinals := triples.mapIdx fun i t => (toLex (t.z, i) : Col ×ₗ Nat)
  let foq := Foq.build spo ((objOrdinals.insertionSort (· ≤ ·)).map ofLex)
    (bitsFor (maxPayload (source.map QuadKey.p)))
  return {
    dict := dict
    orderings := orderings
    graphs := if hasGraphs then some (buildGraphs quads) else none
    foq := if cfg.profile = .compact then some foq else none }

end Graphy
