import Graphy.Succinct.PackedInts

/-!
# Rank and select directories

A bit vector carries the ones before each superblock of 4096 bits, the ones before
each block of 512 bits within its superblock, and the superblock of every 4096th one
and zero.  Rank adds up directory entries and a few words; select narrows a range of
superblocks, walks the blocks and then the words.
-/

namespace Graphy.Succinct

open PackedBits

/-- A panic of an operation on a bit vector. -/
inductive Trap where
  /-- An index past the end, or a position asked for past the length. -/
  | bounds
  /-- An unsigned subtraction below zero. -/
  | underflow
  | unreachable
deriving DecidableEq, Repr

def superBits : Nat := 4096

def blockBits : Nat := 512

def blocksPerSuper : Nat := superBits / blockBits

def wordsPerBlock : Nat := blockBits / 64

def selectSample : Nat := 4096

/-- An entry of an array. -/
def entry {α : Type} (l : List α) (i : Nat) : Except Trap α :=
  match l[i]? with
  | some a => .ok a
  | none => .error .bounds

/-- Unsigned subtraction. -/
def minus (a b : Nat) : Except Trap Nat := if b ≤ a then .ok (a - b) else .error .underflow

def countOnes (w : Nat) : Nat := (lowBits 64 w).count true

/-- The complement of a word. -/
def invert (w : Nat) : Nat := 2 ^ 64 - 1 - w

/-- The lowest set bit of a word, or 64. -/
def trailingZeros (w : Nat) : Nat := ((List.range 64).find? w.testBit).getD 64

structure BitVector where
  words : List Nat
  len : Nat
  ones : Nat
  superRanks : List Nat
  blockRanks : List Nat
  select1Samples : List Nat
  select0Samples : List Nat
deriving DecidableEq, Repr

/-! ## Building -/

/-- The directories over the blocks so far. -/
structure Directory where
  superRanks : List Nat
  blockRanks : List Nat
  total : Nat
  inSuper : Nat

/-- Ones of a block. -/
def blockOnes (words : List Nat) (blk : Nat) : Nat :=
  (((words.drop (blk * wordsPerBlock)).take wordsPerBlock).map countOnes).sum

def Directory.push (words : List Nat) (d : Directory) (blk : Nat) : Directory :=
  let first := blk % blocksPerSuper = 0
  let inSuper := if first then 0 else d.inSuper
  let c := blockOnes words blk
  { superRanks := if first then d.superRanks ++ [d.total] else d.superRanks
    blockRanks := d.blockRanks ++ [inSuper % 2 ^ 16]
    total := d.total + c
    inSuper := inSuper + c }

def directory (words : List Nat) (len : Nat) : Directory :=
  (List.range (len / blockBits + 1)).foldl (Directory.push words) ⟨[], [], 0, 0⟩

/-- The last superblock from `sb` on, of the `left` that follow, with at most `target` before
it. -/
def advance (cumulative : Nat → Nat) (target : Nat) : Nat → Nat → Nat
  | 0, sb => sb
  | left + 1, sb =>
      if cumulative (sb + 1) ≤ target then advance cumulative target left (sb + 1) else sb

/-- The superblocks of every 4096th target below `count`, each kept in 32 bits; at most `left`
of them remain. -/
def sampleFrom (cumulative : Nat → Nat) (nSuper count : Nat) : Nat → Nat → Nat → List Nat
  | 0, _, _ => []
  | left + 1, target, sb =>
      if target < count then
        let sb := advance cumulative target (nSuper - 1 - sb) sb
        sb % 2 ^ 32 :: sampleFrom cumulative nSuper count left (target + selectSample) sb
      else []

def sample (cumulative : Nat → Nat) (nSuper count : Nat) : List Nat :=
  sampleFrom cumulative nSuper count (count / selectSample + 1) 0 0

/-- Zeros before a superblock. -/
def zerosBefore (superRanks : List Nat) (sb : Nat) : Nat := sb * superBits - superRanks.getD sb 0

def BitVector.fromWords (words : List Nat) (len : Nat) : BitVector :=
  let d := directory words len
  { words, len
    ones := d.total
    superRanks := d.superRanks
    blockRanks := d.blockRanks
    select1Samples := sample (d.superRanks.getD · 0) d.superRanks.length d.total
    select0Samples := sample (zerosBefore d.superRanks) d.superRanks.length (len - d.total) }

def BitVector.ofBits (bits : List Bool) : BitVector :=
  .fromWords (BitWords.fromBits bits).words (BitWords.fromBits bits).len

/-! ## Within a word -/

/-- The word without its lowest `n` set bits. -/
def clearLowest : Nat → Nat → Nat
  | 0, b => b
  | n + 1, b => clearLowest n (b &&& (b - 1))

/-- Position of the `rem`-th set bit, walking the `left` bytes of the word that remain. -/
def selectInBytes : Nat → Nat → Nat → Nat → Except Trap Nat
  | 0, _, _, _ => .error .unreachable
  | left + 1, w, rem, pos =>
      let byte := w % 256
      let c := countOnes byte
      if rem < c then .ok (pos + trailingZeros (clearLowest rem byte))
      else selectInBytes left (w / 256) (rem - c) (pos + 8)

def selectInWord (w r : Nat) : Except Trap Nat := selectInBytes 8 w r 0

namespace BitVector

/-! ## Access and rank -/

variable (v : BitVector)

def countZeros : Nat := v.len - v.ones

def get (i : Nat) : Except Trap Bool :=
  if i < v.len then (entry v.words (i / 64)).map fun w => w.testBit (i % 64)
  else .error .bounds

/-- Ones of the words from `start` up to `stop`. -/
def wordRange (start stop : Nat) : Except Trap Nat :=
  if start ≤ stop ∧ stop ≤ v.words.length then
    .ok (((v.words.drop start).take (stop - start)).map countOnes).sum
  else .error .bounds

/-- Ones of the bits below a place in its word. -/
def partialWord (i : Nat) : Except Trap Nat :=
  if i % 64 ≠ 0 then (entry v.words (i / 64)).map fun w => countOnes (w &&& (1 <<< (i % 64) - 1))
  else .ok 0

def rank1 (i : Nat) : Except Trap Nat :=
  if i ≤ v.len then do
    let s ← entry v.superRanks (i / superBits)
    let b ← entry v.blockRanks (i / blockBits)
    let r ← v.wordRange (i / blockBits * wordsPerBlock) (i / 64)
    let p ← v.partialWord i
    return s + b + r + p
  else .error .bounds

def rank0 (i : Nat) : Except Trap Nat := do
  let r ← v.rank1 i
  minus i r

/-! ## Select -/

/-- Binary search for the last superblock with at most `k` before it. -/
def narrow (cumulative : Nat → Except Trap Nat) (k : Nat) : Nat → Nat → Nat → Except Trap Nat
  | 0, lo, _ => .ok lo
  | fuel + 1, lo, hi =>
      if 1 < hi - lo then do
        let c ← cumulative ((lo + hi) / 2)
        if c ≤ k then narrow cumulative k fuel ((lo + hi) / 2) hi
        else narrow cumulative k fuel lo ((lo + hi) / 2)
      else .ok lo

def selectSuperblock (samples : List Nat) (k : Nat) (cumulative : Nat → Except Trap Nat) :
    Except Trap Nat := do
  let lo ← entry samples (k / selectSample)
  let hi := ((samples[k / selectSample + 1]?).map (· + 1)).getD v.superRanks.length
  let width ← minus hi lo
  narrow cumulative k width lo hi

/-- The last block from `blk` on, of the `left` that follow, with at most `rem` before it. -/
def walkBlocks (before : Nat → Except Trap Nat) (rem : Nat) : Nat → Nat → Except Trap Nat
  | 0, blk => .ok blk
  | left + 1, blk => do
      let c ← before (blk + 1)
      if c ≤ rem then walkBlocks before rem left (blk + 1) else .ok blk

/-- The word with the `rem`-th bit to find, the first of the list being word `wi`. -/
def walkWords (view : Nat → Nat) : List Nat → Nat → Nat → Except Trap Nat
  | [], _, _ => .error .unreachable
  | w :: ws, rem, wi =>
      let c := countOnes (view w)
      if rem < c then (selectInWord (view w) rem).map (wi * 64 + ·)
      else walkWords view ws (rem - c) (wi + 1)

/-- Block walk and word walk from a superblock on. -/
def selectFrom (view : Nat → Nat) (sb k : Nat) (cumulative : Nat → Except Trap Nat)
    (before : Nat → Except Trap Nat) : Except Trap Nat := do
  let c ← cumulative sb
  let rem ← minus k c
  let first := sb * blocksPerSuper
  let last := min (first + blocksPerSuper) v.blockRanks.length
  let blk ← walkBlocks before rem (last - 1 - first) first
  let b ← before blk
  let rem ← minus rem b
  walkWords view (v.words.drop (blk * wordsPerBlock)) rem (blk * wordsPerBlock)

def select1 (k : Nat) : Except Trap (Option Nat) :=
  if v.ones ≤ k then .ok none
  else do
    let sb ← v.selectSuperblock v.select1Samples k (entry v.superRanks)
    let found ← v.selectFrom id sb k (entry v.superRanks) (entry v.blockRanks)
    return some found

/-- Zeros before a superblock. -/
def zerosBefore (sb : Nat) : Except Trap Nat := do
  let s ← entry v.superRanks sb
  minus (sb * superBits) s

/-- Zeros before a block of a superblock, within it. -/
def zerosInSuperBefore (sb blk : Nat) : Except Trap Nat := do
  let b ← entry v.blockRanks blk
  minus ((blk - sb * blocksPerSuper) * blockBits) b

def select0 (k : Nat) : Except Trap (Option Nat) :=
  if v.countZeros ≤ k then .ok none
  else do
    let sb ← v.selectSuperblock v.select0Samples k v.zerosBefore
    let found ← v.selectFrom invert sb k v.zerosBefore (v.zerosInSuperBefore sb)
    return some found

/-! ## Scanning forward -/

/-- The first set bit of the words, the first of them being word `wi`. -/
def scanWords (len : Nat) : List Nat → Nat → Option Nat
  | [], _ => none
  | w :: ws, wi =>
      if w ≠ 0 then
        if wi * 64 + trailingZeros w < len then some (wi * 64 + trailingZeros w) else none
      else scanWords len ws (wi + 1)

/-- A word without its lowest bits. -/
def clearBelow (w n : Nat) : Nat := w >>> n <<< n

def nextOne (i : Nat) : Except Trap (Option Nat) :=
  if v.len ≤ i then .ok none
  else do
    let w ← entry v.words (i / 64)
    return scanWords v.len (clearBelow w (i % 64) :: v.words.drop (i / 64 + 1)) (i / 64)

end BitVector

end Graphy.Succinct
