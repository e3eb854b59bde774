import Graphy.Core.Term
import Graphy.Misc.BitVector
import Graphy.Misc.Search

/-!
# BitmapTriples

Forward-adjacency form of a sorted, duplicate-free triple list in one component
ordering: `sy` lists the y values of the distinct (x, y) pairs, `sz` the z
values of the triples, and `bx`, `by_` mark where a group starts.  S- and
P-rooted orderings number the x groups by the x value itself until a gap
forces the explicit x array; O-rooted orderings always carry it.
-/

namespace Graphy

open BitVector

/-- The six component orderings. -/
inductive Order where
  | spo
  | sop
  | pos
  | pso
  | osp
  | ops
deriving DecidableEq, Repr

/-- A triple permuted into the space of some ordering. -/
structure Xyz where
  x : Col
  y : Col
  z : Col
deriving DecidableEq, Repr

namespace Xyz

instance : ToString Xyz := ⟨fun t => toString [t.x.raw, t.y.raw, t.z.raw]⟩

def toPair (t : Xyz) : Col ×ₗ Col ×ₗ Col := toLex (t.x, toLex (t.y, t.z))

theorem toPair_injective : Function.Injective toPair := by
  intro a b h
  have pair := toLex.injective h
  simp only [Prod.mk.injEq] at pair
  obtain ⟨hx, hyz⟩ := pair
  have inner := toLex.injective hyz
  cases a
  cases b
  simp_all

instance : LinearOrder Xyz := LinearOrder.lift' toPair toPair_injective

theorem lt_iff {a b : Xyz} :
    a < b ↔ a.x < b.x ∨ a.x = b.x ∧ (a.y < b.y ∨ a.y = b.y ∧ a.z < b.z) := by
  change toPair a < toPair b ↔ _
  simp only [toPair, Prod.Lex.toLex_lt_toLex]

/-- The (x, y) pair of a triple, ordered by x first. -/
def xy (t : Xyz) : Col ×ₗ Col := toLex (t.x, t.y)


theorem xy_le_of_lt {a b : Xyz} (h : a < b) : a.xy ≤ b.xy := by
  rcases lt_iff.mp h with hx | ⟨hx, hy | ⟨hy, -⟩⟩
  · exact (Prod.Lex.toLex_lt_toLex.mpr (Or.inl hx)).le
  · exact (Prod.Lex.toLex_lt_toLex.mpr (Or.inr ⟨hx, hy⟩)).le
  · exact le_of_eq (by simp [xy, hx, hy])

theorem x_le_of_xy_lt {a b : Xyz} (h : a.xy < b.xy) : a.x ≤ b.x := by
  rcases Prod.Lex.toLex_lt_toLex.mp h with hx | ⟨hx, -⟩
  · exact hx.le
  · exact le_of_eq hx

theorem xy_eq_iff {a b : Xyz} : a.xy = b.xy ↔ a.x = b.x ∧ a.y = b.y := by
  simp [xy]

end Xyz

namespace Order

/-- Permute a canonical triple into this ordering's (x, y, z). -/
def toXyz : Order → TripleKey → Xyz
  | .spo, t => ⟨t.s, t.p, t.o⟩
  | .sop, t => ⟨t.s, t.o, t.p⟩
  | .pos, t => ⟨t.p, t.o, t.s⟩
  | .pso, t => ⟨t.p, t.s, t.o⟩
  | .osp, t => ⟨t.o, t.s, t.p⟩
  | .ops, t => ⟨t.o, t.p, t.s⟩

/-- Inverse of `toXyz`. -/
def toSpo : Order → Xyz → TripleKey
  | .spo, t => ⟨t.x, t.y, t.z⟩
  | .sop, t => ⟨t.x, t.z, t.y⟩
  | .pos, t => ⟨t.z, t.x, t.y⟩
  | .pso, t => ⟨t.y, t.x, t.z⟩
  | .osp, t => ⟨t.y, t.z, t.x⟩
  | .ops, t => ⟨t.z, t.y, t.x⟩

/-- O-rooted orderings carry an explicit x array. -/
def explicitX : Order → Bool
  | .osp | .ops => true
  | _ => false

@[simp] theorem toSpo_toXyz (order : Order) (t : TripleKey) : order.toSpo (order.toXyz t) = t := by
  cases order <;> rfl

@[simp] theorem toXyz_toSpo (order : Order) (t : Xyz) : order.toXyz (order.toSpo t) = t := by
  cases order <;> rfl

theorem toXyz_injective (order : Order) : Function.Injective order.toXyz := by
  intro a b h
  rw [← toSpo_toXyz order a, h, toSpo_toXyz]

end Order

/-- An ordering as stored. -/
structure Bt where
  /-- Number of x groups. -/
  nX : Nat
  /-- Sorted distinct x values, when group index and x value differ. -/
  xValues : Option (List Col)
  bx : List Bool
  sy : List Col
  by_ : List Bool
  sz : List Col
  /-- SPO triple ordinal per triple, for secondary orderings with named graphs. -/
  pz : Option (List Nat)
deriving DecidableEq, Repr

/-- Streaming builder; it takes strictly increasing triples. -/
structure BtBuilder where
  explicitX : Option (List Col)
  bx : List Bool
  sy : List Col
  by_ : List Bool
  sz : List Col
  pz : Option (List Nat)
  last : Option Xyz
  groups : Nat
deriving DecidableEq, Repr

namespace BtBuilder

def new (explicitX : Bool) (withPz : Bool) : BtBuilder where
  explicitX := if explicitX then some [] else none
  bx := []
  sy := []
  by_ := []
  sz := []
  pz := if withPz then some [] else none
  last := none
  groups := 0

/-- The x array after a new group: an implicit array turns explicit at the first
gap, because a term that occurs only inside triple terms heads no group. -/
def pushX (explicitX : Option (List Col)) (groups : Nat) (x : Col) : Option (List Col) :=
  match explicitX with
  | some xs => some (xs ++ [x])
  | none => if x ≠ Col.dict groups then some ((List.range groups).map Col.dict ++ [x]) else none

/-- Append one triple; a triple that does not increase is refused. -/
def push (b : BtBuilder) (t : Xyz) (ordinal : Option Nat) : Except String BtBuilder :=
  match b.last.filter (fun l => decide (t ≤ l)) with
  | some l => .error s!"triples not strictly increasing: {l} then {t}"
  | none =>
    let newX := b.last.all (fun l => decide (l.x ≠ t.x))
    let newY := newX || b.last.all (fun l => decide (l.y ≠ t.y))
    .ok
      { explicitX := if newX then pushX b.explicitX b.groups t.x else b.explicitX
        groups := if newX then b.groups + 1 else b.groups
        sy := if newY then b.sy ++ [t.y] else b.sy
        bx := if newY then b.bx ++ [newX] else b.bx
        sz := b.sz ++ [t.z]
        by_ := b.by_ ++ [newY]
        pz :=
          match b.pz, ordinal with
          | some pz, some ord => some (pz ++ [ord])
          | pz, _ => pz
        last := some t }

def finish (b : BtBuilder) : Bt where
  nX := b.groups
  xValues := b.explicitX
  bx := b.bx
  sy := b.sy
  by_ := b.by_
  sz := b.sz
  pz := b.pz

/-- Push a whole list, with an ordinal for each triple when the payload is kept. -/
def pushAll : BtBuilder → List (Xyz × Option Nat) → Except String BtBuilder
  | b, [] => .ok b
  | b, (t, ord) :: ts => do
      let b ← b.push t ord
      b.pushAll ts

end BtBuilder

namespace Bt

def nTriples (bt : Bt) : Nat := bt.sz.length

/-- Group index of an x value, if present. -/
def xGroup (bt : Bt) (x : Col) : Option Nat :=
  match bt.xValues with
  | none => if x < Col.dict bt.nX then some x.payload else none
  | some xs => findIn xs 0 xs.length x

/-- x value of group `g`. -/
def xValue (bt : Bt) (g : Nat) : Col :=
  match bt.xValues with
  | none => Col.dict g
  | some xs => xs.getD g (Col.dict 0)

/-- `sy` index range of group `g`. -/
def yRange (bt : Bt) (g : Nat) : Nat × Nat :=
  ((select1 bt.bx g).getD 0, (select1 bt.bx (g + 1)).getD bt.sy.length)

def yAt (bt : Bt) (yi : Nat) : Col := bt.sy.getD yi (Col.dict 0)

def nY (bt : Bt) : Nat := bt.sy.length

/-- Group that `sy` position `yi` lies in. -/
def groupOfY (bt : Bt) (yi : Nat) : Nat := rank1 bt.bx (yi + 1) - 1

/-- Position of `y` within group `g`. -/
def findY (bt : Bt) (g : Nat) (y : Col) : Option Nat :=
  findIn bt.sy (bt.yRange g).1 (bt.yRange g).2 y

/-- `sz` ordinal range of `sy` position `yi`. -/
def zRange (bt : Bt) (yi : Nat) : Nat × Nat :=
  ((select1 bt.by_ yi).getD 0, (select1 bt.by_ (yi + 1)).getD bt.sz.length)

/-- `sz` ordinal range of the whole group `g`. -/
def zRangeOfGroup (bt : Bt) (g : Nat) : Nat × Nat :=
  ((select1 bt.by_ (bt.yRange g).1).getD 0, (select1 bt.by_ (bt.yRange g).2).getD bt.sz.length)

def zAt (bt : Bt) (i : Nat) : Col := bt.sz.getD i (Col.dict 0)

/-- SPO ordinal of triple `i`, when the payload is kept. -/
def spoAt (bt : Bt) (i : Nat) : Option Nat := bt.pz.map fun pz => pz.getD i 0

/-- Ordinal of `z` within the range of `sy` position `yi`. -/
def findZ (bt : Bt) (yi : Nat) (z : Col) : Option Nat :=
  findIn bt.sz (bt.zRange yi).1 (bt.zRange yi).2 z

/-- The triple at ordinal `i`. -/
def tripleAt (bt : Bt) (i : Nat) : Xyz :=
  let yi := rank1 bt.by_ (i + 1) - 1
  ⟨bt.xValue (rank1 bt.bx (yi + 1) - 1), bt.yAt yi, bt.zAt i⟩

/-- First `sy` index at or after `start` that starts an x group. -/
def nextGroupStart (bt : Bt) (start : Nat) : Nat := (nextOne bt.bx start).getD bt.sy.length

/-- First ordinal at or after `start` that starts an (x, y) run. -/
def nextRunStart (bt : Bt) (start : Nat) : Nat := (nextOne bt.by_ start).getD bt.sz.length

/-- A position in the triples, kept with the run and the group it lies in. -/
structure BtSeqIter where
  i : Nat
  stop : Nat
  yi : Nat
  /-- `sy` index where the next x group starts. -/
  groupEndYi : Nat
  g : Nat
  x : Col
  y : Col
  /-- Ordinal where the next (x, y) run starts. -/
  runEnd : Nat
deriving DecidableEq, Repr

/-- Sequential triples over the ordinals `[lo, hi)`. -/
def seqRange (bt : Bt) (lo hi : Nat) : BtSeqIter :=
  if hi ≤ lo then ⟨0, 0, 0, 0, 0, Col.dict 0, Col.dict 0, 0⟩
  else
    let yi := rank1 bt.by_ (lo + 1) - 1
    let g := rank1 bt.bx (yi + 1) - 1
    { i := lo
      stop := hi
      yi := yi
      groupEndYi := bt.nextGroupStart (yi + 1)
      g := g
      x := bt.xValue g
      y := bt.yAt yi
      runEnd := bt.nextRunStart (lo + 1) }

/-- Enter the run that starts at the current ordinal. -/
def BtSeqIter.enterRun (bt : Bt) (it : BtSeqIter) : BtSeqIter :=
  let it := { it with yi := it.yi + 1 }
  let it :=
    if it.groupEndYi ≤ it.yi then
      { it with
        g := it.g + 1
        x := bt.xValue (it.g + 1)
        groupEndYi := bt.nextGroupStart (it.yi + 1) }
    else it
  { it with y := bt.yAt it.yi, runEnd := bt.nextRunStart (it.i + 1) }

/-- The next ordinal and its triple. -/
def BtSeqIter.next (bt : Bt) (it : BtSeqIter) : Option (Nat × Xyz) × BtSeqIter :=
  if it.stop ≤ it.i then (none, it)
  else
    let it := if it.runEnd ≤ it.i then it.enterRun bt else it
    (some (it.i, ⟨it.x, it.y, bt.zAt it.i⟩), { it with i := it.i + 1 })

/-- What `n` calls of `next` give, up to the first that gives nothing. -/
def BtSeqIter.collect (bt : Bt) : Nat → BtSeqIter → List (Nat × Xyz)
  | 0, _ => []
  | n + 1, it =>
      match it.next bt with
      | (some e, it) => e :: collect bt n it
      | (none, _) => []

end Bt

end Graphy
