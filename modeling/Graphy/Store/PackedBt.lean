import Graphy.Store.BtBytes
import Graphy.Succinct.RankSelect

/-!
# Navigation that can panic

The navigation of a packed ordering with every check the code makes on the way: reads and
ranks assert their bounds, `select1` goes through the samples of the directories and must find
its one, and 64-bit sums and differences must not leave their range.  A call that panics gives
nothing.
-/

namespace Graphy

/-- A 64-bit sum. -/
def checkedAdd (a b : Nat) : Option Nat := if a + b < 2 ^ 64 then some (a + b) else none

/-- A 64-bit difference. -/
def checkedSub (a b : Nat) : Option Nat := if b ≤ a then some (a - b) else none

theorem checkedSub_eq {a b : Nat} (h : b ≤ a) : checkedSub a b = some (a - b) := if_pos h

namespace BitWords

/-- The directories are rebuilt when a bit vector is loaded. -/
def load (b : BitWords) : Succinct.BitVector := .fromWords b.words b.len

/-- Ones in `[0, i)`, where `i` may equal the length. -/
def rank1 (b : BitWords) (i : Nat) : Option Nat := (b.load.rank1 i).toOption

/-- Position of the `k`-th one, if there are as many. -/
def select1 (b : BitWords) (k : Nat) : Option (Option Nat) := (b.load.select1 k).toOption

/-- Position of the first one at or after `start`. -/
def nextOne (b : BitWords) (start : Nat) : Option (Option Nat) := (b.load.nextOne start).toOption

end BitWords

namespace PackedInts

/-- First index of `[lo, hi)` whose value is not below `v`. -/
def lowerBound (seq : PackedInts) (v : Nat) : Nat → Nat → Nat → Option Nat
  | 0, lo, _ => some lo
  | fuel + 1, lo, hi =>
      if lo < hi then do
        let sum ← checkedAdd lo hi
        let u ← seq.get (sum / 2)
        if u < v then
          let next ← checkedAdd (sum / 2) 1
          lowerBound seq v fuel next hi
        else lowerBound seq v fuel lo (sum / 2)
      else some lo

/-- Position of `v` within the increasing positions `[lo, hi)`. -/
def find (seq : PackedInts) (lo hi v : Nat) : Option (Option Nat) := do
  let i ← seq.lowerBound v (hi - lo) lo hi
  if i < hi then
    let u ← seq.get i
    return if u = v then some i else none
  else return none

end PackedInts

namespace PackedBt

def nTriples (bt : PackedBt) : Nat := bt.sz.len

def nY (bt : PackedBt) : Nat := bt.sy.len

def xGroup (bt : PackedBt) (x : Nat) : Option (Option Nat) :=
  match bt.xValues with
  | none => some (if x < bt.nX then some x else none)
  | some xs => xs.find 0 xs.len x

def xValue (bt : PackedBt) (g : Nat) : Option Nat :=
  match bt.xValues with
  | none => some g
  | some xs => xs.get g

def yRange (bt : PackedBt) (g : Nat) : Option (Nat × Nat) := do
  let start ← (← bt.bx.select1 g)
  let next ← checkedAdd g 1
  let stop ← bt.bx.select1 next
  return (start, stop.getD bt.sy.len)

def yAt (bt : PackedBt) (yi : Nat) : Option Nat := bt.sy.get yi

def groupOfY (bt : PackedBt) (yi : Nat) : Option Nat := do
  let i ← checkedAdd yi 1
  let rank ← bt.bx.rank1 i
  checkedSub rank 1

def findY (bt : PackedBt) (g y : Nat) : Option (Option Nat) := do
  let (start, stop) ← bt.yRange g
  bt.sy.find start stop y

def zRange (bt : PackedBt) (yi : Nat) : Option (Nat × Nat) := do
  let start ← (← bt.by_.select1 yi)
  let next ← checkedAdd yi 1
  let stop ← bt.by_.select1 next
  return (start, stop.getD bt.sz.len)

def zRangeOfGroup (bt : PackedBt) (g : Nat) : Option (Nat × Nat) := do
  let (ya, yb) ← bt.yRange g
  let start ← (← bt.by_.select1 ya)
  let stop ← bt.by_.select1 yb
  return (start, stop.getD bt.sz.len)

def zAt (bt : PackedBt) (i : Nat) : Option Nat := bt.sz.get i

def spoAt (bt : PackedBt) (i : Nat) : Option (Option Nat) :=
  match bt.pz with
  | none => some none
  | some pz => (pz.get i).map some

def findZ (bt : PackedBt) (yi z : Nat) : Option (Option Nat) := do
  let (start, stop) ← bt.zRange yi
  bt.sz.find start stop z

/-- Position in `sy` of the run that ordinal `i` lies in. -/
def runOf (bt : PackedBt) (i : Nat) : Option Nat := do
  let next ← checkedAdd i 1
  let rank ← bt.by_.rank1 next
  checkedSub rank 1

def tripleAt (bt : PackedBt) (i : Nat) : Option (Nat × Nat × Nat) := do
  let z ← bt.sz.get i
  let yi ← bt.runOf i
  let y ← bt.sy.get yi
  let g ← bt.groupOfY yi
  let x ← bt.xValue g
  return (x, y, z)

def nextGroupStart (bt : PackedBt) (start : Nat) : Option Nat := do
  let next ← bt.bx.nextOne start
  return next.getD bt.sy.len

def nextRunStart (bt : PackedBt) (start : Nat) : Option Nat := do
  let next ← bt.by_.nextOne start
  return next.getD bt.sz.len

/-- A position in the triples, kept with the run and the group it lies in. -/
structure SeqIter where
  i : Nat
  stop : Nat
  yi : Nat
  groupEndYi : Nat
  g : Nat
  x : Nat
  y : Nat
  runEnd : Nat
deriving DecidableEq, Repr

def seqRange (bt : PackedBt) (lo hi : Nat) : Option SeqIter :=
  if hi ≤ lo then some ⟨0, 0, 0, 0, 0, 0, 0, 0⟩
  else do
    let yi ← bt.runOf lo
    let g ← bt.groupOfY yi
    let nextYi ← checkedAdd yi 1
    let groupEndYi ← bt.nextGroupStart nextYi
    let x ← bt.xValue g
    let y ← bt.sy.get yi
    let next ← checkedAdd lo 1
    let runEnd ← bt.nextRunStart next
    return ⟨lo, hi, yi, groupEndYi, g, x, y, runEnd⟩

/-- Enter the group that starts at the current run, when one does. -/
def enterGroup (bt : PackedBt) (it : SeqIter) : Option SeqIter :=
  if it.groupEndYi ≤ it.yi then do
    let g ← checkedAdd it.g 1
    let x ← bt.xValue g
    let nextYi ← checkedAdd it.yi 1
    let groupEndYi ← bt.nextGroupStart nextYi
    return { it with g := g, x := x, groupEndYi := groupEndYi }
  else some it

/-- Enter the run that starts at the current ordinal. -/
def enterRun (bt : PackedBt) (it : SeqIter) : Option SeqIter := do
  let yi ← checkedAdd it.yi 1
  let it ← bt.enterGroup { it with yi := yi }
  let y ← bt.sy.get it.yi
  let next ← checkedAdd it.i 1
  let runEnd ← bt.nextRunStart next
  return { it with y := y, runEnd := runEnd }

/-- Be in the run of the current ordinal. -/
def keepRun (bt : PackedBt) (it : SeqIter) : Option SeqIter :=
  if it.runEnd ≤ it.i then bt.enterRun it else some it

/-- The next ordinal and its triple. -/
def next (bt : PackedBt) (it : SeqIter) : Option (Option (Nat × Nat × Nat × Nat) × SeqIter) :=
  if it.stop ≤ it.i then some (none, it)
  else do
    let it ← bt.keepRun it
    let i ← checkedAdd it.i 1
    let z ← bt.sz.get it.i
    return (some (it.i, it.x, it.y, z), { it with i := i })

/-- Where an iterator stands after some calls of `next`. -/
def nextTimes (bt : PackedBt) : Nat → SeqIter → Option SeqIter
  | 0, it => some it
  | n + 1, it => do
      let (_, it) ← bt.next it
      bt.nextTimes n it

/-- What `n` calls of `next` give, up to the first that gives nothing. -/
def collect (bt : PackedBt) : Nat → SeqIter → Option (List (Nat × Nat × Nat × Nat))
  | 0, _ => some []
  | n + 1, it => do
      let (found, it) ← bt.next it
      match found with
      | none => return []
      | some e => return e :: (← bt.collect n it)

/-- No navigation call panics for arguments in range. -/
structure Navigable (bt : PackedBt) : Prop where
  tripleAt : ∀ i < bt.nTriples, (bt.tripleAt i).isSome
  spoAt : ∀ i < bt.nTriples, (bt.spoAt i).isSome
  seqRange : ∀ lo hi, lo ≤ hi → hi ≤ bt.nTriples →
    ∃ it, bt.seqRange lo hi = some it ∧ ∀ n, (bt.nextTimes n it).isSome
  xGroup : ∀ x, ∃ found, bt.xGroup x = some found ∧ ∀ g, found = some g → g < bt.nX
  xValue : ∀ g < bt.nX, (bt.xValue g).isSome
  yRange : ∀ g < bt.nX, ∃ ya yb, bt.yRange g = some (ya, yb) ∧ yb ≤ bt.nY
  findY : ∀ g < bt.nX, ∀ y, ∃ found, bt.findY g y = some found ∧ ∀ yi, found = some yi → yi < bt.nY
  groupOfY : ∀ yi < bt.nY, ∃ g, bt.groupOfY yi = some g ∧ g < bt.nX
  zRange : ∀ yi < bt.nY, ∃ za zb, bt.zRange yi = some (za, zb) ∧ zb ≤ bt.nTriples
  zRangeOfGroup : ∀ g < bt.nX, ∃ za zb, bt.zRangeOfGroup g = some (za, zb) ∧ zb ≤ bt.nTriples
  findZ : ∀ yi < bt.nY, ∀ z, ∃ found, bt.findZ yi z = some found ∧
    ∀ i, found = some i → i < bt.nTriples

/-- The words of a triple. -/
def raws (t : Xyz) : Nat × Nat × Nat := (t.x.raw, t.y.raw, t.z.raw)

/-- Every navigation call returns what it gives on the unpacked sequences, for arguments in
range. -/
structure Follows (bt : PackedBt) (u : Bt) : Prop where
  nTriples : bt.nTriples = u.nTriples
  tripleAt : ∀ i < u.nTriples, bt.tripleAt i = some (raws (u.tripleAt i))
  spoAt : ∀ i < u.nTriples, bt.spoAt i = some (u.spoAt i)
  seqRange : ∀ lo hi, lo ≤ hi → hi ≤ u.nTriples → ∃ it, bt.seqRange lo hi = some it ∧
    ∀ n, bt.collect n it = some (((u.seqRange lo hi).collect u n).map fun e => (e.1, raws e.2))
  xGroup : ∀ x, bt.xGroup x = some (u.xGroup (Col.ofRaw x))
  xValue : ∀ g < u.nX, bt.xValue g = some (u.xValue g).raw
  yRange : ∀ g < u.nX, bt.yRange g = some (u.yRange g)
  findY : ∀ g < u.nX, ∀ y, bt.findY g y = some (u.findY g (Col.ofRaw y))
  groupOfY : ∀ yi < u.nY, bt.groupOfY yi = some (u.groupOfY yi)
  zRange : ∀ yi < u.nY, bt.zRange yi = some (u.zRange yi)
  zRangeOfGroup : ∀ g < u.nX, bt.zRangeOfGroup g = some (u.zRangeOfGroup g)
  findZ : ∀ yi < u.nY, ∀ z, bt.findZ yi z = some (u.findZ yi (Col.ofRaw z))

end PackedBt

end Graphy
