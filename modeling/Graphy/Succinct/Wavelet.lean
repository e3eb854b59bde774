import Graphy.Succinct.PackedInts
import Graphy.Succinct.Reference

/-!
# Wavelet matrices over rank and select directories

One bit vector for each bit of the symbols, the highest first.  Every level is stably
partitioned by the bits of the level before it, zeros left and ones right; rank goes
down the levels and select comes back up.  The builder over a packed sequence streams
the two packed halves of the level before.
-/

namespace Graphy.Succinct

/-- One level: the bits, and the number of zeros among them. -/
structure Level where
  bits : BitVector
  zeros : Nat
deriving DecidableEq, Repr

structure WaveletMatrix where
  width : Nat
  len : Nat
  levels : List Level
deriving DecidableEq, Repr

/-! ## Building -/

/-- The level of the symbols for one bit. -/
def Level.build (shift : Nat) (cur : List Nat) : Level :=
  let bits := BitVector.ofBits (cur.map fun v => v.testBit shift)
  { bits, zeros := bits.countZeros }

/-- Levels of the bits below `shift`, the highest first. -/
def newLevels : Nat → List Nat → List Level
  | 0, _ => []
  | shift + 1, cur =>
      Level.build shift cur :: newLevels shift
        (cur.filter (fun v => !v.testBit shift) ++ cur.filter (fun v => v.testBit shift))

/-- The symbols a level reads: the halves of the level before, or the sequence itself. -/
def streamed (values : PackedInts) : Option (PackedInts × PackedInts) → List Nat
  | none => values.values
  | some (zs, os) => zs.values ++ os.values

/-- As `newLevels`, with the halves packed; the last level leaves none behind. -/
def packedLevels (values : PackedInts) : Nat → Option (PackedInts × PackedInts) → List Level
  | 0, _ => []
  | shift + 1, parts =>
      let cur := streamed values parts
      let zs := PackedInts.withWidth (cur.filter fun v => !v.testBit shift) values.width
      let os := PackedInts.withWidth (cur.filter fun v => v.testBit shift) values.width
      Level.build shift cur ::
        packedLevels values shift (if shift = 0 then parts else some (zs, os))

namespace WaveletMatrix

def new (values : List Nat) (width : Nat) : WaveletMatrix where
  width := width
  len := values.length
  levels := newLevels width values

def fromPacked (values : PackedInts) : WaveletMatrix where
  width := values.width
  len := values.len
  levels := packedLevels values values.width none

end WaveletMatrix

/-! ## Access, rank and select -/

/-- Where a position of the level goes on the next one, for a one or a zero. -/
def Level.next (level : Level) (bit : Bool) (i : Nat) : Except Trap Nat :=
  if bit then (level.bits.rank1 i).map (level.zeros + ·) else level.bits.rank0 i

def accessFrom : List Level → Nat → Nat → Except Trap Nat
  | [], _, v => .ok v
  | level :: rest, i, v => do
      let bit ← level.bits.get i
      let i ← level.next bit i
      accessFrom rest i (if bit then v ||| 1 <<< rest.length else v)

/-- The range of a symbol's bucket below the levels, from a range above them. -/
def descend : List Level → Nat → Nat → Nat → Except Trap (Nat × Nat)
  | [], _, l, r => .ok (l, r)
  | level :: rest, sym, l, r => do
      let l ← level.next (sym.testBit rest.length) l
      let r ← level.next (sym.testBit rest.length) r
      descend rest sym l r

/-- Back to a position of the level before: the position of its one or zero. -/
def Level.back (level : Level) (bit : Bool) (pos : Nat) : Except Trap (Option Nat) :=
  if bit then do level.bits.select1 (← minus pos level.zeros) else level.bits.select0 pos

/-- Inverts the mapping of every level, the last one first. -/
def ascend : List Level → Nat → Nat → Except Trap (Option Nat)
  | [], _, pos => .ok (some pos)
  | level :: rest, sym, pos => do
      match ← ascend rest sym pos with
      | none => return none
      | some pos => level.back (sym.testBit rest.length) pos

namespace WaveletMatrix

variable (wm : WaveletMatrix)

/-- The symbol at a position. -/
def access (i : Nat) : Except Trap Nat :=
  if i < wm.len then accessFrom wm.levels i 0 else .error .bounds

/-- Occurrences of a symbol before a position. -/
def rank (sym i : Nat) : Except Trap Nat :=
  if i ≤ wm.len then do
    let (l, r) ← descend wm.levels sym 0 i
    minus r l
  else .error .bounds

/-- Position of the `k`-th occurrence of a symbol. -/
def select (sym k : Nat) : Except Trap (Option Nat) := do
  let (l, r) ← descend wm.levels sym 0 wm.len
  let n ← minus r l
  if n ≤ k then return none else ascend wm.levels sym (l + k)

end WaveletMatrix

/-! ## The sequence itself -/

/-- The matrix of the sequence answers for the symbol as the sequence does, and the two builders
give the same matrix. -/
structure Represents (values : List Nat) (width sym : Nat) : Prop where
  access : ∀ i v, values[i]? = some v → (WaveletMatrix.new values width).access i = .ok v
  rank : ∀ i, i ≤ values.length →
    (WaveletMatrix.new values width).rank sym i = .ok ((values.take i).count sym)
  select : ∀ k, (WaveletMatrix.new values width).select sym k =
    .ok (Graphy.BitVector.select1 (values.map (· == sym)) k)
  same : WaveletMatrix.fromPacked (PackedInts.withWidth values width) =
    WaveletMatrix.new values width

/-- The sample that leads back to a position of the level is straight. -/
def StraightBack (level : WaveletLevel) (bit : Bool) (i : Nat) : Prop :=
  if bit then StraightAt level.bits (Graphy.BitVector.rank1 level.bits i / selectSample)
  else StraightAt (level.bits.map not) (Graphy.BitVector.rank0 level.bits i / selectSample)

/-- Every level leads back to the element at a position from a straight sample. -/
def Climbs : List WaveletLevel → Nat → Prop
  | [], _ => True
  | level :: rest, i =>
      let bit := level.bits.getD i false
      StraightBack level bit i ∧
        Climbs rest (Graphy.WaveletMatrix.WaveletLevel.next level bit i)

/-- Every occurrence of the symbol climbs the levels of the sequence. -/
def Selectable (values : List Nat) (width sym : Nat) : Prop :=
  ∀ pos, values[pos]? = some sym → Climbs (Graphy.WaveletMatrix.buildLevels width values) pos

end Graphy.Succinct
