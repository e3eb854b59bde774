import Graphy.Misc.Probing
import Graphy.Succinct.Pfc
import Mathlib.Data.Nat.Log

/-!
# Hash sidecars

One open-addressing table for each section of a dictionary, from a term to its ordinal.  A
slot is zero when it is empty; else it has the high byte of the term's hash as a fingerprint
above the ordinal plus one.  A candidate is confirmed against the section.
-/

namespace Graphy

structure HashSidecar where
  slots : List Nat
deriving DecidableEq, Repr

namespace HashSidecar

def fpShift : Nat := 56

def ordinalMask : Nat := 2 ^ fpShift - 1

/-- The complement of the ordinal mask in a word. -/
def fpMask : Nat := (2 ^ 8 - 1) <<< fpShift

/-- The least power of two that is at least `n`. -/
def nextPowerOfTwo (n : Nat) : Nat := 2 ^ Nat.clog 2 n

def isPowerOfTwo (n : Nat) : Prop := n ≠ 0 ∧ n &&& (n - 1) = 0

instance decidableIsPowerOfTwo (n : Nat) : Decidable (isPowerOfTwo n) :=
  inferInstanceAs (Decidable (_ ∧ _))

/-- The number of slots for `n` terms. -/
def slotCount (n : Nat) : Nat := max (nextPowerOfTwo (n * 4 / 3 + 1)) 8

section Hash

variable (hash : Bytes → Fin (2 ^ 64))

def fingerprint (term : Bytes) : Nat := (hash term).val >>> fpShift <<< fpShift

/-- The slot of a term. -/
def slotOf (ordinal : Nat) (term : Bytes) : Nat := fingerprint hash term ||| (ordinal + 1)

/-- A slot that is empty ends the search for one. -/
def vacant (slots : List Nat) (place : Nat) : Option (Except PfcPanic Nat) :=
  match slots[place]? with
  | none => some (.error .bounds)
  | some slot => if slot ≠ 0 then none else some (.ok place)

/-- Ordinals insert in order, each at the first empty slot from where its hash points. -/
def insertAll (mask fuel : Nat) : List Bytes → Nat → List Nat → Option (Except PfcPanic (List Nat))
  | [], _, slots => some (.ok slots)
  | term :: rest, ordinal, slots =>
      match probe (fun place => (place + 1) &&& mask) (vacant slots) fuel
          ((hash term).val &&& mask) with
      | none => none
      | some (.error e) => some (.error e)
      | some (.ok place) =>
          insertAll mask fuel rest (ordinal + 1) (slots.set place (slotOf hash ordinal term))

/-- Built from the terms of a section, unless the fuel of a search runs out. -/
def build (fuel : Nat) (p : Pfc) : Option (Except PfcPanic HashSidecar) :=
  match p.iter with
  | .error e => some (.error e)
  | .ok terms =>
      let nSlots := slotCount p.n
      match insertAll hash (nSlots - 1) fuel terms 0 (List.replicate nSlots 0) with
      | none => none
      | some (.error e) => some (.error e)
      | some (.ok slots) => some (.ok ⟨slots⟩)

/-- An empty slot ends the search for a term, and so does one that the section confirms. -/
def candidate (slots : List Nat) (term : Bytes) (p : Pfc) (place : Nat) :
    Option (Except PfcPanic (Option Nat)) :=
  match slots[place]? with
  | none => some (.error .bounds)
  | some slot =>
      if slot = 0 then some (.ok none)
      else if slot &&& fpMask = fingerprint hash term then
        if slot &&& ordinalMask = 0 then some (.error .underflow)
        else
          let ordinal := (slot &&& ordinalMask) - 1
          match p.get ordinal with
          | .error e => some (.error e)
          | .ok key => if key = some term then some (.ok (some ordinal)) else none
      else none

/-- Ordinal of a term, unless the fuel runs out. -/
def locate (side : HashSidecar) (fuel : Nat) (term : Bytes) (p : Pfc) :
    Option (Except PfcPanic (Option Nat)) :=
  if side.slots.length = 0 then some (.error .underflow)
  else
    let mask := side.slots.length - 1
    probe (fun place => (place + 1) &&& mask) (candidate hash side.slots term p) fuel
      ((hash term).val &&& mask)

end Hash

def occupied (slots : List Nat) : Nat := slots.countP (· ≠ 0)

def serialize (side : HashSidecar) : Bytes :=
  writeU64 side.slots.length ++ (writeU64 (occupied side.slots) ++ writeU64s side.slots)

def bad (m : String) : IoError := .invalidData s!"sidecar: {m}"

def deserialize (payload : Bytes) (sectionLen : Nat) : Except IoError HashSidecar := do
  let c := ByteCursor.new payload
  let (nSlots, c) ← c.readU64
  let (nEntries, c) ← c.readU64
  if ¬ isPowerOfTwo nSlots ∨ nSlots < 8 then throw (bad "slot count not a power of two ≥ 8")
  if nEntries ≠ sectionLen ∨ nSlots * 3 % 2 ^ 64 < nEntries * 4 % 2 ^ 64 then
    throw (bad "entry count does not match section")
  let (slots, c) ← c.takeWords nSlots
  if c.remaining ≠ 0 then throw (bad "trailing bytes")
  if slots.any fun s => s ≠ 0 ∧ (s &&& ordinalMask = 0 ∨ nEntries < s &&& ordinalMask) then
    throw (bad "slot ordinal out of range")
  if occupied slots ≠ nEntries then throw (bad "occupied slots do not match entry count")
  return ⟨slots⟩

end HashSidecar

end Graphy
