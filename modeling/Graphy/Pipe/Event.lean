import Graphy.Misc.Search
import Graphy.Turtle.Parser

/-!
# Pipeline events

Quads flow between stages as borrowed concise bytes.  Stages that buffer copy a quad into one
allocation with 32-bit offsets into it, and events cross threads in batches that share an arena
the same way.
-/

namespace Graphy.Pipe

open Turtle (Shorthand)

/-- The terms of a quad, valid for the duration of a callback. -/
abbrev QuadRef := Turtle.QuadRec

/-- One pipeline event. -/
inductive Event where
  | quad (q : QuadRef)
  /-- A prefix declaration seen by a source. -/
  | declared (name iri : String)
deriving DecidableEq

/-- The quad of an event. -/
def Event.quad? : Event → Option QuadRef
  | .quad q => some q
  | .declared _ _ => none

/-- A length or an offset cast to 32 bits. -/
def asU32 (n : Nat) : Nat := n % 2 ^ 32

def u32Max : Nat := 2 ^ 32 - 1

/-- The bytes `[start, stop)`, or a panic. -/
def sliceAt (bytes : Bytes) (start stop : Nat) : Option Bytes :=
  if start ≤ stop ∧ stop ≤ bytes.length then some (slice bytes start stop) else none

/-! ## Owned quads -/

/-- A quad copied out of a parser arena. -/
structure OwnedQuad where
  bytes : Bytes
  pAt : Nat
  oAt : Nat
  /-- `u32Max` is the default graph. -/
  gAt : Nat
  shorthand : Option Shorthand
deriving DecidableEq, Repr

namespace OwnedQuad

/-- What equality and hashing look at; the shorthand is display metadata. -/
def identity (q : OwnedQuad) : Nat × Nat × Nat × Bytes := (q.gAt, q.pAt, q.oAt, q.bytes)

def fromRef (q : QuadRef) : OwnedQuad :=
  let bytes := q.s
  let pAt := asU32 bytes.length
  let bytes := bytes ++ q.p
  let oAt := asU32 bytes.length
  let bytes := bytes ++ q.o
  match q.g with
  | none => ⟨bytes, pAt, oAt, u32Max, q.shorthand⟩
  | some g => ⟨bytes ++ g, pAt, oAt, asU32 bytes.length, q.shorthand⟩

def asRef (q : OwnedQuad) : Option QuadRef := do
  let oEnd := if q.gAt = u32Max then q.bytes.length else q.gAt
  let s ← sliceAt q.bytes 0 q.pAt
  let p ← sliceAt q.bytes q.pAt q.oAt
  let o ← sliceAt q.bytes q.oAt oEnd
  let g ← (if q.gAt = u32Max then some none
    else (sliceAt q.bytes q.gAt q.bytes.length).map some)
  return ⟨s, p, o, g, q.shorthand⟩

end OwnedQuad

/-! ## Batches -/

/-- Boundaries within the arena of a batch. -/
inductive Item where
  /-- `gEnd = oEnd` is the default graph. -/
  | quad (start sEnd pEnd oEnd gEnd : Nat) (shorthand : Option Shorthand)
  | declared (start nameEnd iriEnd : Nat)
deriving DecidableEq, Repr

/-- Owned events: one arena, offset records. -/
structure EventBatch where
  bytes : Bytes
  items : List Item
deriving DecidableEq, Repr

namespace EventBatch

def empty : EventBatch := ⟨[], []⟩

def push (batch : EventBatch) (ev : Event) : EventBatch :=
  let start := asU32 batch.bytes.length
  match ev with
  | .quad q =>
      let bytes := batch.bytes ++ q.s
      let sEnd := asU32 bytes.length
      let bytes := bytes ++ q.p
      let pEnd := asU32 bytes.length
      let bytes := bytes ++ q.o
      let oEnd := asU32 bytes.length
      let bytes := bytes ++ q.g.getD []
      let gEnd := asU32 bytes.length
      ⟨bytes, batch.items ++ [.quad start sEnd pEnd oEnd gEnd q.shorthand]⟩
  | .declared name iri =>
      let bytes := batch.bytes ++ strBytes name
      let nameEnd := asU32 bytes.length
      let bytes := bytes ++ strBytes iri
      let iriEnd := asU32 bytes.length
      ⟨bytes, batch.items ++ [.declared start nameEnd iriEnd]⟩

def len (batch : EventBatch) : Nat := batch.items.length

def byteLen (batch : EventBatch) : Nat := batch.bytes.length

/-- The UTF-8 bytes `[start, stop)`, or a panic. -/
def textAt (bytes : Bytes) (start stop : Nat) : Option String := do
  let text ← sliceAt bytes start stop
  String.fromUTF8? ⟨text.toArray⟩

/-- An item read back. -/
def event (bytes : Bytes) : Item → Option Event
  | .quad start sEnd pEnd oEnd gEnd shorthand => do
      let s ← sliceAt bytes start sEnd
      let p ← sliceAt bytes sEnd pEnd
      let o ← sliceAt bytes pEnd oEnd
      let g ← (if gEnd = oEnd then some none else (sliceAt bytes oEnd gEnd).map some)
      return .quad ⟨s, p, o, g, shorthand⟩
  | .declared start nameEnd iriEnd => do
      let name ← textAt bytes start nameEnd
      let iri ← textAt bytes nameEnd iriEnd
      return .declared name iri

/-- The events, each read when it comes up. -/
def events (batch : EventBatch) : List (Option Event) := batch.items.map (event batch.bytes)

end EventBatch

end Graphy.Pipe
