import Graphy.Store.Bt
import Graphy.Succinct.Serial

/-!
# The bytes of a stored ordering

A stored ordering keeps its bitmaps and sequences packed.  A payload is the flags, the
number of x groups and the sequences one after another; reading it back checks what
navigation relies on.  `Bt` is the same ordering with the sequences unpacked.
-/

namespace Graphy

namespace Col

/-- The column value of a 64-bit word. -/
def ofRaw (n : Nat) : Col := ⟨n / 2 ^ 60, n % 2 ^ 60⟩

/-- The column value is one of a 64-bit word. -/
def IsWord (c : Col) : Prop := c.tag < 2 ^ 4 ∧ c.payload < 2 ^ 60

end Col

/-- An ordering with its sequences packed. -/
structure PackedBt where
  nX : Nat
  xValues : Option PackedInts
  bx : BitWords
  sy : PackedInts
  by_ : BitWords
  sz : PackedInts
  pz : Option PackedInts
deriving DecidableEq, Repr

/-- Pack the sequences, the y and z values and the ordinals at the builder's widths and the
x values at the smallest. -/
def Bt.pack (bt : Bt) (yWidth zWidth ordinalWidth : Nat) : PackedBt where
  nX := bt.nX
  xValues := bt.xValues.map fun xs => PackedInts.fromSlice (xs.map Col.raw)
  bx := BitWords.fromBits bt.bx
  sy := PackedInts.withWidth (bt.sy.map Col.raw) yWidth
  by_ := BitWords.fromBits bt.by_
  sz := PackedInts.withWidth (bt.sz.map Col.raw) zWidth
  pz := bt.pz.map fun pz => PackedInts.withWidth pz ordinalWidth

namespace PackedBt

def unpack (bt : PackedBt) : Bt where
  nX := bt.nX
  xValues := bt.xValues.map fun xs => xs.values.map Col.ofRaw
  bx := bt.bx.bits
  sy := bt.sy.values.map Col.ofRaw
  by_ := bt.by_.bits
  sz := bt.sz.values.map Col.ofRaw
  pz := bt.pz.map PackedInts.values

/-- Bit 0 announces an explicit x array, bit 1 the ordinals. -/
def flags (bt : PackedBt) : Nat := bt.xValues.isSome.toNat ||| bt.pz.isSome.toNat <<< 1

def optional (seq : Option PackedInts) : Bytes :=
  match seq with
  | none => []
  | some p => p.serialize

def serialize (bt : PackedBt) : Bytes :=
  writeU64 bt.flags ++ (writeU64 bt.nX ++ (optional bt.xValues ++ (bt.bx.serialize ++
    (bt.sy.serialize ++ (bt.by_.serialize ++ (bt.sz.serialize ++ optional bt.pz))))))

def readOptional (present : Bool) (c : ByteCursor) :
    Except IoError (Option PackedInts × ByteCursor) :=
  if present then do
    let (p, c) ← PackedInts.deserializeView c
    return (some p, c)
  else .ok (none, c)

/-- The parts of a payload as they stand in it. -/
def readParts (c : ByteCursor) : Except IoError (PackedBt × ByteCursor) := do
  let (flags, c) ← c.readU64
  let (nX, c) ← c.readU64
  let (xValues, c) ← readOptional (flags &&& 1 = 1) c
  let (bx, c) ← BitWords.deserializeView c
  let (sy, c) ← PackedInts.deserializeView c
  let (by_, c) ← BitWords.deserializeView c
  let (sz, c) ← PackedInts.deserializeView c
  let (pz, c) ← readOptional (flags &&& 2 = 2) c
  return (⟨nX, xValues, bx, sy, by_, sz, pz⟩, c)

/-- The values strictly increase. -/
def increasing : List Nat → Bool
  | a :: b :: rest => decide (a < b) && increasing (b :: rest)
  | _ => true

/-- What is wrong with the parts, if anything. -/
def defect (bt : PackedBt) : Option String :=
  if bt.bx.len ≠ bt.sy.len ∨ bt.by_.len ≠ bt.sz.len then
    some "bitmap/sequence length mismatch"
  else if bt.bx.bits.count true ≠ bt.nX ∨ bt.by_.bits.count true ≠ bt.sy.len then
    some "group-start counts do not match"
  else if bt.sy.len ≠ 0 ∧ (bt.bx.bits.head? ≠ some true ∨ bt.by_.bits.head? ≠ some true) then
    some "first group-start bit unset"
  else if bt.xValues.any (fun xs => xs.len ≠ bt.nX) then
    some "explicit X count mismatch"
  else if bt.xValues.any (fun xs => !increasing xs.values) then
    some "explicit X values not strictly increasing"
  else if bt.pz.any (fun pz => pz.len ≠ bt.sz.len) then
    some "Pz length differs from Sz"
  else if bt.pz.any (fun pz => pz.values.any fun v => bt.sz.len ≤ v) then
    some "Pz ordinal out of range"
  else none

def deserialize (c : ByteCursor) : Except IoError (PackedBt × ByteCursor) := do
  let (bt, c) ← readParts c
  match bt.defect with
  | some m => throw (.invalidData s!"bt: {m}")
  | none => return (bt, c)

/-! ## The layout of a payload -/

/-- Where a bit vector that stands at an offset ends. -/
def bitsEnd (payload : Bytes) (offset : Nat) : Nat :=
  offset + 8 + PackedBits.wordCount (ByteCursor.wordAt payload offset) * 8

/-- Where a packed sequence that stands at an offset ends. -/
def seqEnd (payload : Bytes) (offset : Nat) : Nat :=
  offset + 16 + PackedBits.wordCount
    (ByteCursor.wordAt payload (offset + 8) * ByteCursor.wordAt payload offset) * 8

/-- Where the pair marks stand, after the flags, the group count and the x array. -/
def bxOffset (payload : Bytes) : Nat :=
  if ByteCursor.wordAt payload 0 &&& 1 = 1 then seqEnd payload 16 else 16

def syOffset (payload : Bytes) : Nat := bitsEnd payload (bxOffset payload)

def byOffset (payload : Bytes) : Nat := seqEnd payload (syOffset payload)

def szOffset (payload : Bytes) : Nat := bitsEnd payload (byOffset payload)

/-- The bits of a bit vector that stands at an offset. -/
def bitsAt (payload : Bytes) (offset : Nat) : List Bool :=
  (List.range (ByteCursor.wordAt payload offset)).map fun i =>
    (ByteCursor.wordAt payload (offset + 8 + i / 64 * 8)).testBit (i % 64)

/-- The number of (x, y) pairs a payload announces. -/
def pairCount (payload : Bytes) : Nat := ByteCursor.wordAt payload (syOffset payload + 8)

/-- The number of triples a payload announces. -/
def tripleCount (payload : Bytes) : Nat := ByteCursor.wordAt payload (szOffset payload + 8)

end PackedBt

end Graphy
