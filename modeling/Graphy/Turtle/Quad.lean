import Graphy.Turtle.Terms

/-!
# Quads

The parsers buffer the quads of a call: their terms stand in one arena and are referred to by
32-bit ranges until the caller has drained them.
-/

namespace Graphy.Turtle

/-- How an object was written when it was written short. -/
inductive Shorthand where
  | integer
  | decimal
  | double
  | boolean
deriving DecidableEq, Repr

/-- A finished quad, copied out of the arena. -/
structure QuadRec where
  s : Bytes
  p : Bytes
  o : Bytes
  g : Option Bytes
  shorthand : Option Shorthand
deriving DecidableEq, Repr

/-- Bytes that a quad takes in the buffer. -/
def QuadRec.size (q : QuadRec) : Nat :=
  q.s.length + q.p.length + q.o.length + (q.g.getD []).length

/-! ## The quad buffer -/

/-- A quad's terms as ranges of the buffer's arena. -/
structure QuadHandles where
  s : H
  p : H
  o : H
  g : Option H
  shorthand : Option Shorthand
deriving DecidableEq, Repr

/-- Quads parsed by the call in progress, with the bytes of their terms. -/
structure QuadBuf where
  arena : Arena
  quads : List QuadHandles
deriving DecidableEq, Repr

namespace QuadBuf

def empty : QuadBuf := ⟨.empty, []⟩

/-- Copy the terms of a finished statement and record the quad. -/
def pushQuadFrom (buf : QuadBuf) (s p o : Bytes) (g : Option Bytes)
    (shorthand : Option Shorthand) : QuadBuf :=
  let arenaS := buf.arena.append s
  let arenaP := arenaS.append p
  let arenaO := arenaP.append o
  let arenaG := arenaO.append (g.getD [])
  let rec_ : QuadHandles := {
    s := arenaS.handleFrom buf.arena.mark
    p := arenaP.handleFrom arenaS.mark
    o := arenaO.handleFrom arenaP.mark
    g := g.map fun _ => arenaG.handleFrom arenaO.mark
    shorthand := shorthand }
  ⟨arenaG, buf.quads ++ [rec_]⟩

def push (buf : QuadBuf) (q : QuadRec) : QuadBuf := buf.pushQuadFrom q.s q.p q.o q.g q.shorthand

/-- The bytes of an optional range. -/
def getGraph (arena : Arena) : Option H → Option (Option Bytes)
  | none => some none
  | some h => (arena.get h).map some

/-- Read a recorded quad back; nothing when a range is out of bounds. -/
def read (arena : Arena) (q : QuadHandles) : Option QuadRec := do
  let s ← arena.get q.s
  let p ← arena.get q.p
  let o ← arena.get q.o
  let g ← getGraph arena q.g
  return ⟨s, p, o, g, q.shorthand⟩

def iter (buf : QuadBuf) : Option (List QuadRec) := buf.quads.mapM (read buf.arena)

end QuadBuf

end Graphy.Turtle
