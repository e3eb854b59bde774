import Graphy.Misc.PackedBits
import Graphy.Misc.WaveletMatrix

/-!
# Packed sequences

Fixed-width integers and single bits packed in 64-bit words.  Reading out of range
panics, so the readers give nothing there.
-/

namespace Graphy

open PackedBits

/-- Bit-packed unsigned integers of one width up to 64. -/
structure PackedInts where
  width : Nat
  len : Nat
  data : List Nat
deriving DecidableEq, Repr

namespace PackedInts

/-- Append a value that fits the width. -/
def push (p : PackedInts) (v : Nat) : PackedInts :=
  if p.width = 0 then { p with len := p.len + 1 }
  else { p with data := pushBits p.data (p.len * p.width) p.width v, len := p.len + 1 }

/-- Pack at an explicit width. -/
def withWidth (values : List Nat) (width : Nat) : PackedInts :=
  values.foldl push ⟨width, 0, []⟩

/-- Pack at the smallest width that fits the maximum. -/
def fromSlice (values : List Nat) : PackedInts :=
  withWidth values (bitsFor (values.foldl max 0))

/-- Value `i`; nothing out of range. -/
def get (p : PackedInts) (i : Nat) : Option Nat :=
  if i < p.len then
    if p.width = 0 then some 0 else readBits p.data (i * p.width) p.width
  else none

/-- The values in order. -/
def values (p : PackedInts) : List Nat := (List.range p.len).map fun i => (p.get i).getD 0

/-- Reassemble from raw parts, with the word count and the padding checked. -/
def fromWords (width len : Nat) (data : List Nat) : Except String PackedInts :=
  if 64 < width then .error s!"width {width} > 64"
  else if data.length ≠ wordCount (len * width) then
    .error s!"data has {data.length} words, expected {wordCount (len * width)}"
  else if len * width % 64 ≠ 0 ∧
      (data.getLast?.any fun last => last >>> (len * width % 64) ≠ 0) then
    .error "padding bits past the last value are not zero"
  else .ok ⟨width, len, data⟩

end PackedInts

/-- The words of a bit vector. -/
structure BitWords where
  words : List Nat
  len : Nat
deriving DecidableEq, Repr

namespace BitWords

/-- Append a bit. -/
def push (b : BitWords) (bit : Bool) : BitWords :=
  let words := if b.len / 64 = b.words.length then b.words ++ [0] else b.words
  { words := if bit then words.modify (b.len / 64) (fun w => w ||| 1 <<< (b.len % 64)) else words
    len := b.len + 1 }

def fromBits (bits : List Bool) : BitWords := bits.foldl push ⟨[], 0⟩

/-- The bits in order. -/
def bits (b : BitWords) : List Bool := (List.range b.len).map (bitAt b.words)

end BitWords

end Graphy
