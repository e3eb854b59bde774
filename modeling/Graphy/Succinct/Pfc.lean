import Graphy.Core.Concise
import Graphy.Succinct.Serial

/-!
# Plain front coding

A sorted dictionary of byte strings in blocks: every block stores its head whole, every
other entry the length of the prefix it shares with the entry before it and the rest.
A key is located by halving over the heads and a scan of one block.  Untrusted bytes are
walked once when they are read; the accessors after that check nothing.
-/

namespace Graphy

/-- A panic of an accessor. -/
inductive PfcPanic where
  /-- A slice or an index past the end. -/
  | bounds
  /-- A varint expected to be valid. -/
  | varint
  | underflow
  /-- No cursor where the iterator expects one. -/
  | cursor
deriving DecidableEq, Repr

structure Pfc where
  blockSize : Nat
  n : Nat
  data : Bytes
  blockOffsets : List Nat
deriving DecidableEq, Repr

structure PfcBuilder where
  blockSize : Nat
  n : Nat
  data : Bytes
  blockOffsets : List Nat
  last : Bytes

/-! ## Building -/

def commonPrefix : Bytes → Bytes → Nat
  | a :: as, b :: bs => if a = b then commonPrefix as bs + 1 else 0
  | _, _ => 0

namespace PfcBuilder

def new (blockSize : Nat) : PfcBuilder := ⟨blockSize, 0, [], [], []⟩

def push (b : PfcBuilder) (key : Bytes) : PfcBuilder :=
  if b.n % b.blockSize = 0 then
    { b with
      n := b.n + 1
      data := b.data ++ (Varint.write key.length ++ key)
      blockOffsets := b.blockOffsets ++ [b.data.length]
      last := key }
  else
    let lcp := commonPrefix b.last key
    { b with
      n := b.n + 1
      data := b.data ++ (Varint.write lcp ++ (Varint.write (key.length - lcp) ++ key.drop lcp))
      last := key }

def build (b : PfcBuilder) : Pfc := ⟨b.blockSize, b.n, b.data, b.blockOffsets⟩

end PfcBuilder

namespace Pfc

/-- The dictionary of the keys, pushed one by one. -/
def ofKeys (blockSize : Nat) (keys : List Bytes) : Pfc :=
  (keys.foldl PfcBuilder.push (.new blockSize)).build

/-! ## Access -/

/-- A decoder inside a block: where its next entry starts, and its current key. -/
structure BlockCursor where
  pos : Nat
  key : Bytes
deriving DecidableEq, Repr

variable (p : Pfc)

/-- The varint at a place, and the place after it. -/
def readAt (pos : Nat) : Except PfcPanic (Nat × Nat) :=
  if pos ≤ p.data.length then
    match Varint.read (p.data.drop pos) with
    | some (v, n) => .ok (v, pos + n)
    | none => .error .varint
  else .error .bounds

/-- Some bytes from a place on. -/
def sliceAt (pos len : Nat) : Except PfcPanic Bytes :=
  if pos + len ≤ p.data.length then .ok ((p.data.drop pos).take len) else .error .bounds

/-- The offset of a block. -/
def offset (block : Nat) : Except PfcPanic Nat :=
  match p.blockOffsets[block]? with
  | some off => .ok off
  | none => .error .bounds

/-- At the head of a block. -/
def cursor (block : Nat) : Except PfcPanic BlockCursor := do
  let off ← p.offset block
  let (len, start) ← p.readAt off
  let key ← p.sliceAt start len
  return ⟨start + len, key⟩

/-- The next entry of the block. -/
def advance (c : BlockCursor) : Except PfcPanic BlockCursor := do
  let (lcp, pos) ← p.readAt c.pos
  let (suffixLen, pos) ← p.readAt pos
  let suffix ← p.sliceAt pos suffixLen
  return ⟨pos + suffixLen, c.key.take lcp ++ suffix⟩

def advanceBy : Nat → BlockCursor → Except PfcPanic BlockCursor
  | 0, c => .ok c
  | k + 1, c => do
      let c ← p.advance c
      advanceBy k c

/-- The `idx`-th key. -/
def get (idx : Nat) : Except PfcPanic (Option Bytes) :=
  if p.n ≤ idx then .ok none
  else do
    let c ← p.cursor (idx / p.blockSize)
    let c ← p.advanceBy (idx % p.blockSize) c
    return some c.key

def head (block : Nat) : Except PfcPanic Bytes := do
  let off ← p.offset block
  let (len, start) ← p.readAt off
  p.sliceAt start len

/-- Heads before `lo` are at most the key, heads from `hi` on are above it. -/
def partitionByHead (key : Bytes) : Nat → Nat → Nat → Except PfcPanic Nat
  | 0, lo, _ => .ok lo
  | fuel + 1, lo, hi =>
      if lo < hi then do
        let head ← p.head ((lo + hi) / 2)
        if head ≤ key then partitionByHead key fuel ((lo + hi) / 2 + 1) hi
        else partitionByHead key fuel lo ((lo + hi) / 2)
      else .ok lo

/-- Looks for the key among the `left` entries of the block that remain, the cursor being at the
first of them, entry `idx` of the dictionary. -/
def scanBlock (key : Bytes) : Nat → Nat → BlockCursor → Except PfcPanic (Option Nat)
  | 0, _, _ => .ok none
  | left + 1, idx, c =>
      if c.key = key then .ok (some idx)
      else if key < c.key then .ok none
      else if left = 0 then .ok none
      else do
        let c ← p.advance c
        scanBlock key left (idx + 1) c

/-- Index of a key. -/
def locate (key : Bytes) : Except PfcPanic (Option Nat) :=
  if p.n = 0 then .ok none
  else do
    let upto ← p.partitionByHead key p.blockOffsets.length 0 p.blockOffsets.length
    if upto = 0 then return none
    let block := upto - 1
    let c ← p.cursor block
    if p.n < block * p.blockSize then throw .underflow
    p.scanBlock key (min (p.n - block * p.blockSize) p.blockSize) (block * p.blockSize) c

/-! ## Iteration -/

structure PfcIter where
  next : Nat
  cursor : Option BlockCursor

/-- The cursor of the next entry: at the head of its block, or past the one held. -/
def PfcIter.turn (it : PfcIter) : Except PfcPanic BlockCursor :=
  if it.next % p.blockSize = 0 then p.cursor (it.next / p.blockSize)
  else
    match it.cursor with
    | some c => p.advance c
    | none => .error .cursor

/-- The next key, and the iterator after it. -/
def PfcIter.step (it : PfcIter) : Except PfcPanic (Option (Bytes × PfcIter)) :=
  if p.n ≤ it.next then .ok none
  else do
    let c ← it.turn p
    return some (c.key, ⟨it.next + 1, some c⟩)

/-- The keys the iterator yields until it ends. -/
def PfcIter.collect : Nat → PfcIter → Except PfcPanic (List Bytes)
  | 0, _ => .ok []
  | fuel + 1, it => do
      match ← it.step p with
      | none => return []
      | some (key, it) => do
          let rest ← PfcIter.collect fuel it
          return key :: rest

/-- All keys in order. -/
def iter : Except PfcPanic (List Bytes) := PfcIter.collect p (p.n + 1) ⟨0, none⟩

/-! ## Reading untrusted parts -/

def readVarint (pos : Nat) : Except String (Nat × Nat) :=
  match Varint.read (p.data.drop pos) with
  | some (v, n) => .ok (v, pos + n)
  | none => .error s!"truncated varint at byte {pos}"

/-- The `left` entries of the block from entry `e` on, after a key of some length. -/
def walkEntries (b : Nat) : Nat → Nat → Nat → Nat → Except String Unit
  | 0, _, _, _ => .ok ()
  | left + 1, e, pos, keyLen => do
      let (lcp, pos) ← p.readVarint pos
      let (suffix, pos) ← p.readVarint pos
      if keyLen < lcp then throw s!"block {b} entry {e}: lcp exceeds previous key"
      -- A sum past 64 bits is refused with the suffix that makes it so.
      if p.data.length < pos + suffix then throw s!"block {b} entry {e} out of bounds"
      walkEntries b left (e + 1) (pos + suffix) (lcp + suffix)

/-- The blocks from block `b` on. -/
def walkBlocks : List Nat → Nat → Except String Unit
  | [], _ => .ok ()
  | off :: rest, b => do
      if p.data.length < off then throw s!"block {b} offset {off} out of bounds"
      if rest.head?.any (· ≤ off) then throw s!"block offsets not strictly increasing at {b}"
      let (headLen, pos) ← p.readVarint off
      if p.data.length < pos + headLen then throw s!"block {b} head out of bounds"
      p.walkEntries b (min (p.n - b * p.blockSize) p.blockSize - 1) 1 (pos + headLen) headLen
      walkBlocks rest (b + 1)

def validateWalk : Except String Unit := p.walkBlocks p.blockOffsets 0

/-- Blocks of `n` keys. -/
def divCeil (n blockSize : Nat) : Nat := (n + blockSize - 1) / blockSize

def fromParts (blockSize n : Nat) (data : Bytes) (blockOffsets : List Nat) : Except String Pfc := do
  if blockSize = 0 then throw "block size must be at least 1"
  if blockOffsets.length ≠ divCeil n blockSize then
    throw "block offset count does not match key count"
  let p : Pfc := ⟨blockSize, n, data, blockOffsets⟩
  p.validateWalk
  return p

/-! ## Bytes -/

def serialize : Bytes :=
  writeU64 p.blockSize ++ (writeU64 p.n ++ (writeU64 p.blockOffsets.length ++
    (writeU64s p.blockOffsets ++ (writeU64 p.data.length ++ p.data))))

def parts (blockSize n : Nat) (data : Bytes) (blockOffsets : List Nat) : Except IoError Pfc :=
  match fromParts blockSize n data blockOffsets with
  | .ok p => .ok p
  | .error m => .error (.invalidData s!"PFC: {m}")

def deserializeView (c : ByteCursor) : Except IoError (Pfc × ByteCursor) := do
  let (blockSize, c) ← c.readU64
  if blockSize = 0 ∨ 2 ^ 20 < blockSize then
    throw (.invalidData s!"PFC block size {blockSize} out of range")
  let (n, c) ← c.readU64
  if cap < n then throw (.invalidData s!"PFC length {n} exceeds sanity cap")
  let (nOffsets, c) ← c.readU64
  if nOffsets ≠ divCeil n blockSize then
    throw (.invalidData "PFC offset count does not match key count")
  let (offsets, c) ← c.takeWords nOffsets
  let (dataLen, c) ← c.readU64
  if cap < dataLen then throw (.invalidData s!"PFC data length {dataLen} exceeds sanity cap")
  let (data, c) ← c.takeBytes dataLen
  let p ← parts blockSize n data offsets
  return (p, c)

end Pfc

/-! ## Reading from a stream -/

def streamU64 (r : Bytes) : Except IoError (Nat × Bytes) := do
  let (b, r) ← readExact 8 r
  return (leNat b, r)

/-- A length within a bound. -/
def readLen (most : Nat) (what : String) (r : Bytes) : Except IoError (Nat × Bytes) := do
  let (v, r) ← streamU64 r
  if most < v then throw (.invalidData s!"{what} length {v} exceeds sanity cap {most}")
  return (v, r)

def streamU64s : Nat → Bytes → Except IoError (List Nat × Bytes)
  | 0, r => .ok ([], r)
  | n + 1, r => do
      let (v, r) ← streamU64 r
      let (vs, r) ← streamU64s n r
      return (v :: vs, r)

def Pfc.deserialize (r : Bytes) : Except IoError (Pfc × Bytes) := do
  let (blockSize, r) ← readLen (2 ^ 20) "PFC block size" r
  let (n, r) ← readLen cap "PFC" r
  let (nOffsets, r) ← readLen cap "PFC offsets" r
  if blockSize = 0 then throw (.invalidData "PFC block size zero")
  if nOffsets ≠ divCeil n blockSize then
    throw (.invalidData "PFC offset count does not match key count")
  let (offsets, r) ← streamU64s nOffsets r
  let (dataLen, r) ← readLen cap "PFC data" r
  let (data, r) ← readExact dataLen r
  let p ← parts blockSize n data offsets
  return (p, r)

/-! ## What a dictionary answers -/

/-- The dictionary answers as the list of its keys does, without a panic. -/
structure Pfc.Answers (p : Pfc) (keys : List Bytes) : Prop where
  get : ∀ i, p.get i = .ok keys[i]?
  iter : p.iter = .ok keys
  ends : ∀ key, ∃ r, p.locate key = .ok r
  locate : ∀ key i, p.locate key = .ok (some i) ↔ keys[i]? = some key

/-- No accessor panics: the dictionary holds some keys in some order, and location finds nothing
that is not there. -/
def Pfc.Panicless (p : Pfc) : Prop :=
  ∃ keys : List Bytes, (∀ i, p.get i = .ok keys[i]?) ∧ p.iter = .ok keys ∧
    ∀ key, ∃ r, p.locate key = .ok r ∧ ∀ i, r = some i → keys[i]? = some key

/-- Both readers give the dictionary back from its bytes. -/
def Pfc.ReadsBack (p : Pfc) : Prop :=
  (∀ rest, deserialize (p.serialize ++ rest) = .ok (p, rest)) ∧
    ∃ c, deserializeView (.new p.serialize) = .ok (p, c)

/-- Both readers refuse the bytes of the dictionary. -/
def Pfc.Refused (p : Pfc) : Prop :=
  (∃ e, deserialize p.serialize = .error e) ∧ ∃ e, deserializeView (.new p.serialize) = .error e

/-- Within the caps of the readers. -/
structure Pfc.Within (p : Pfc) : Prop where
  blockSize : p.blockSize ≤ 2 ^ 20
  n : p.n ≤ cap
  data : p.data.length ≤ cap

/-- The sizes are those of a 64-bit machine. -/
structure Pfc.Sized (p : Pfc) : Prop where
  blockSize : p.blockSize < 2 ^ 64
  n : p.n < 2 ^ 64
  data : p.data.length < 2 ^ 64

end Graphy
