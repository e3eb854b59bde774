import Graphy.Misc.Push
import Graphy.Pipe.Event
import Mathlib.Data.List.Sort
import Mathlib.Data.Prod.Lex

/-!
# Operators

Middleware that sees each event once: slices by quads or by subject groups, and the dataset
tree.  Every operator passes prefix declarations on; what it does with a quad is an action on
the rest of the chain, and at the end of the stream it flushes what it has buffered.
-/

namespace Graphy.Pipe

/-- What `skip`, `head` and `tail` count. -/
inductive Unit where
  | quads
  /-- Consecutive runs of one subject in stream order. -/
  | subjects
deriving DecidableEq, Repr

/-- Tracks consecutive runs of one subject. -/
structure Groups where
  cur : Bytes
  begun : Nat

/-- Observes a quad's subject, and returns how many groups have begun. -/
def Groups.observe (groups : Groups) (s : Bytes) : Groups × Nat :=
  let groups := if groups.begun = 0 ∨ groups.cur ≠ s then ⟨s, groups.begun + 1⟩ else groups
  (groups, groups.begun)

/-! ## Skip -/

structure Skip where
  n : Nat
  unit : Unit
  quadsSeen : Nat
  groups : Groups

namespace Skip

def new (n : Nat) (unit : Unit) : Skip := ⟨n, unit, 0, ⟨[], 0⟩⟩

/-- Drops the first quads or groups and forwards the rest. -/
def event (op : Skip) (q : QuadRef) : Skip × Act :=
  match op.unit with
  | .quads =>
      let op := { op with quadsSeen := op.quadsSeen + 1 }
      (op, if op.n < op.quadsSeen then .forward else .swallow)
  | .subjects =>
      let (groups, begun) := op.groups.observe q.s
      ({ op with groups }, if op.n < begun then .forward else .swallow)

end Skip

/-! ## Head -/

structure Head where
  n : Nat
  unit : Unit
  quadsOut : Nat
  groups : Groups
  stopped : Bool

namespace Head

def new (n : Nat) (unit : Unit) : Head := ⟨n, unit, 0, ⟨[], 0⟩, false⟩

/-- Forwards the first quads or groups, then stops the stream: with the last quad when quads are
counted, with the first quad of one group more when groups are. -/
def event (op : Head) (q : QuadRef) : Head × Act :=
  if op.stopped then (op, .halt)
  else
    match op.unit with
    | .quads =>
        if op.n = 0 then ({ op with stopped := true }, .halt)
        else
          let op := { op with quadsOut := op.quadsOut + 1 }
          if op.n ≤ op.quadsOut then ({ op with stopped := true }, .forwardHalt)
          else (op, .forward)
    | .subjects =>
        let (groups, begun) := op.groups.observe q.s
        if op.n < begun then ({ op with groups, stopped := true }, .halt)
        else ({ op with groups }, .forward)

end Head

/-! ## Tail -/

structure Tail where
  n : Nat
  unit : Unit
  quads : List OwnedQuad
  groups : List (List OwnedQuad)
  curSubject : Bytes
  started : Bool

namespace Tail

def new (n : Nat) (unit : Unit) : Tail := ⟨n, unit, [], [], [], false⟩

/-- Makes room in a full queue. -/
def popFull {α : Type} (n : Nat) (queue : List α) : List α :=
  if queue.length = n then queue.drop 1 else queue

/-- Adds to the last group. -/
def pushBack {α : Type} (groups : List (List α)) (x : α) : List (List α) :=
  groups.modifyLast (· ++ [x])

/-- Buffers the last quads or groups. -/
def event (op : Tail) (q : QuadRef) : Tail × Act :=
  if op.n = 0 then (op, .swallow)
  else
    match op.unit with
    | .quads =>
        ({ op with quads := popFull op.n op.quads ++ [OwnedQuad.fromRef q] }, .swallow)
    | .subjects =>
        let op :=
          if op.started = false ∨ op.curSubject ≠ q.s then
            { op with
              started := true
              curSubject := q.s
              groups := popFull op.n op.groups ++ [[]] }
          else op
        ({ op with groups := pushBack op.groups (OwnedQuad.fromRef q) }, .swallow)

/-- What is flushed at the end of the stream. -/
def flushed (op : Tail) : List (Option QuadRef) :=
  (op.quads ++ op.groups.flatten).map OwnedQuad.asRef

end Tail

/-! ## Tree -/

/-- The rank of a key, the next one when the map does not have the key. -/
def orInsert {κ : Type} [DecidableEq κ] (ranks : List (κ × Nat)) (key : κ) :
    List (κ × Nat) × Nat :=
  let next := asU32 ranks.length
  match ranks.lookup key with
  | some rank => (ranks, rank)
  | none => (ranks ++ [(key, next)], next)

/-- A quad with its ranks: graph, subject within it, predicate within that. -/
structure RankedQuad where
  g : Nat
  s : Nat
  p : Nat
  quad : OwnedQuad

def RankedQuad.sortKey (r : RankedQuad) : Nat ×ₗ Nat ×ₗ Nat := toLex (r.g, toLex (r.s, r.p))

/-- Ranks follow the order keys are first seen in, each level within its parent. -/
structure Tree where
  seen : List OwnedQuad
  /-- The empty key is the default graph. -/
  gRank : List (Bytes × Nat)
  sRank : List ((Nat × Bytes) × Nat)
  pRank : List ((Nat × Nat × Bytes) × Nat)
  quads : List RankedQuad

namespace Tree

def new : Tree := ⟨[], [], [], [], []⟩

def contains (seen : List OwnedQuad) (q : OwnedQuad) : Bool :=
  seen.any fun other => other.identity == q.identity

/-- Drops duplicates and files the rest. -/
def event (op : Tree) (q : QuadRef) : Tree × Act :=
  let owned := OwnedQuad.fromRef q
  if contains op.seen owned then (op, .swallow)
  else
    let (gRank, g) := orInsert op.gRank (q.g.getD [])
    let (sRank, s) := orInsert op.sRank (g, q.s)
    let (pRank, p) := orInsert op.pRank (g, s, q.p)
    (⟨op.seen ++ [owned], gRank, sRank, pRank, op.quads ++ [⟨g, s, p, owned⟩]⟩, .swallow)

/-- What is flushed at the end of the stream: a stable sort by ranks. -/
def flushed (op : Tree) : List (Option QuadRef) :=
  (op.quads.insertionSort fun a b => a.sortKey ≤ b.sortKey).map fun r => r.quad.asRef

end Tree

/-! ## Chains -/

inductive Op where
  | skip (op : Skip)
  | head (op : Head)
  | tail (op : Tail)
  | tree (op : Tree)

namespace Op

def event : Op → QuadRef → Op × Act
  | .skip op, q => ((op.event q).1 |> .skip, (op.event q).2)
  | .head op, q => ((op.event q).1 |> .head, (op.event q).2)
  | .tail op, q => ((op.event q).1 |> .tail, (op.event q).2)
  | .tree op, q => ((op.event q).1 |> .tree, (op.event q).2)

/-- What `finish` flushes. -/
def flushed : Op → List (Option QuadRef)
  | .skip _ => []
  | .head _ => []
  | .tail op => op.flushed
  | .tree op => op.flushed

/-- What `finish` leaves, its buffers taken. -/
def drained : Op → Op
  | .skip op => .skip op
  | .head op => .head op
  | .tail op => .tail { op with quads := [], groups := [] }
  | .tree op => .tree { op with quads := [] }

end Op

/-- An operator in a chain, and how often it has been finished. -/
structure Stage where
  op : Op
  finished : Nat

def stage : Middleware Stage QuadRef where
  step st q := (⟨(st.op.event q).1, st.finished⟩, (st.op.event q).2)
  buffered st := st.op.flushed
  close st := ⟨st.op.drained, st.finished + 1⟩

/-- The operators of a chain before its terminal, the first one outermost. -/
@[reducible] def Chain (S : Type) : List Op → Type
  | [] => S
  | _ :: ops => Stage × Chain S ops

namespace Chain

variable {S : Type}

def start : (ops : List Op) → S → Chain S ops
  | [], s => s
  | op :: ops, s => (⟨op, 0⟩, start ops s)

def terminal : {ops : List Op} → Chain S ops → S
  | [], s => s
  | _ :: _, st => terminal st.2

/-- How often each stage has been finished. -/
def finished : {ops : List Op} → Chain S ops → List Nat
  | [], _ => []
  | _ :: _, st => st.1.finished :: finished st.2

end Chain

/-- Composes operators onto a terminal.  The first one sees events first. -/
def chain {S : Type} : (ops : List Op) → Sink S Event → Sink (Chain S ops) Event
  | [], terminal => terminal
  | _ :: ops, terminal => stage.stage Event.quad? .quad (chain ops terminal)

end Graphy.Pipe
