import Graphy.Core.Term
import Graphy.Misc.LittleEndian
import Graphy.Succinct.PackedInts

/-!
# Serialization of packed sequences

Only lengths and payload words are stored, all integers little-endian in eight bytes.
A cursor reads them back; its bytes start at an aligned address.
-/

namespace Graphy

open PackedBits

/-- An I/O error: its kind and its text. -/
inductive IoError where
  | unexpectedEof (message : String)
  | invalidData (message : String)
deriving DecidableEq, Repr

def writeU64 (v : Nat) : Bytes := leBytes 8 v

def writeU64s (values : List Nat) : Bytes := values.flatMap writeU64

/-- A forward-only reader. -/
structure ByteCursor where
  bytes : Bytes
  pos : Nat
deriving DecidableEq, Repr

namespace ByteCursor

def new (bytes : Bytes) : ByteCursor := ⟨bytes, 0⟩

def remaining (c : ByteCursor) : Nat := c.bytes.length - c.pos

def short (c : ByteCursor) (need : Nat) : IoError :=
  .unexpectedEof s!"need {need} bytes at offset {c.pos}, have {c.remaining}"

def readU64 (c : ByteCursor) : Except IoError (Nat × ByteCursor) :=
  if c.remaining < 8 then .error (c.short 8)
  else .ok (leNat ((c.bytes.drop c.pos).take 8), { c with pos := c.pos + 8 })

/-- The words some bytes spell, as many as are asked for. -/
def wordsOf : Nat → Bytes → List Nat
  | 0, _ => []
  | n + 1, bytes => leNat (bytes.take 8) :: wordsOf n (bytes.drop 8)

/-- The next `n` words, when they are there and aligned. -/
def takeWords (c : ByteCursor) (n : Nat) : Except IoError (List Nat × ByteCursor) :=
  if 2 ^ 64 ≤ n * 8 then .error (c.short (2 ^ 64 - 1))
  else if c.remaining < n * 8 then .error (c.short (n * 8))
  else if c.pos % 8 ≠ 0 then .error (.invalidData "byte view is not 8-byte aligned")
  else .ok (wordsOf n (c.bytes.drop c.pos), { c with pos := c.pos + n * 8 })

/-- The next `n` bytes, when they are there. -/
def takeBytes (c : ByteCursor) (n : Nat) : Except IoError (Bytes × ByteCursor) :=
  if c.remaining < n then .error (c.short n)
  else .ok ((c.bytes.drop c.pos).take n, { c with pos := c.pos + n })

/-- The word at a byte offset. -/
def wordAt (bytes : Bytes) (offset : Nat) : Nat := leNat ((bytes.drop offset).take 8)

end ByteCursor

/-- Exactly the next `n` bytes of a stream. -/
def readExact (n : Nat) (r : Bytes) : Except IoError (Bytes × Bytes) :=
  if r.length < n then .error (.unexpectedEof "failed to fill whole buffer")
  else .ok (r.take n, r.drop n)

/-- Most elements a sequence read from untrusted bytes may have. -/
def cap : Nat := 2 ^ 48

namespace BitWords

def serialize (b : BitWords) : Bytes := writeU64 b.len ++ writeU64s b.words

def deserializeView (c : ByteCursor) : Except IoError (BitWords × ByteCursor) := do
  let (len, c) ← c.readU64
  if cap < len then throw (.invalidData s!"bitvector length {len} exceeds sanity cap")
  let (words, c) ← c.takeWords (wordCount len)
  if len % 64 ≠ 0 ∧ (words.getLast?.any fun last => last >>> (len % 64) ≠ 0) then
    throw (.invalidData "bitvector trailing bits past len are not zero")
  return (⟨words, len⟩, c)

end BitWords

namespace PackedInts

def serialize (p : PackedInts) : Bytes :=
  writeU64 p.width ++ (writeU64 p.len ++ writeU64s p.data)

def deserializeView (c : ByteCursor) : Except IoError (PackedInts × ByteCursor) := do
  let (width, c) ← c.readU64
  if 64 < width then throw (.invalidData s!"packed-int width {width} > 64")
  let (len, c) ← c.readU64
  if cap < len then throw (.invalidData s!"packed-int length {len} exceeds sanity cap")
  let (data, c) ← c.takeWords (wordCount (len * width))
  match fromWords width len data with
  | .error m => throw (.invalidData s!"packed ints: {m}")
  | .ok p => return (p, c)

end PackedInts

end Graphy
