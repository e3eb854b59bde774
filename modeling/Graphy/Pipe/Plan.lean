import Graphy.Pipe.Ops
import Mathlib.Logic.Relation

/-!
# Pipeline plan and execution

The operators before the junction replicate once per input, into legs; the legs join at the
junction and the operators after it run once.  `concat` runs the legs one after another, `merge`
runs them on threads that send batches of events to the junction.
-/

namespace Graphy.Pipe

/-- One operator, built afresh for each leg. -/
inductive OpSpec where
  | skip (n : Nat) (unit : Unit)
  | head (n : Nat) (unit : Unit)
  | tail (n : Nat) (unit : Unit)
  | tree
deriving DecidableEq, Repr

def OpSpec.build : OpSpec → Op
  | .skip n unit => .skip (Skip.new n unit)
  | .head n unit => .head (Head.new n unit)
  | .tail n unit => .tail (Tail.new n unit)
  | .tree => .tree Tree.new

def buildOps (specs : List OpSpec) : List Op := specs.map OpSpec.build

/-- A terminal that keeps the quads it is given.  No terminal stops the stream. -/
structure Terminal where
  quads : List QuadRef
  finished : Nat

namespace Terminal

def new : Terminal := ⟨[], 0⟩

def sink : Sink Terminal Event where
  event st ev := ({ st with quads := st.quads ++ ev.quad?.toList }, .go)
  finish st := some { st with finished := st.finished + 1 }

end Terminal

/-- A source that pushes its events into a leg until it is told to stop. -/
def runLeg {S : Type} (sink : Sink S Event) (st : S) (input : List Event) : S :=
  sink.feed st input

/-- What a run leaves: the terminal, and how often each stage has been finished. -/
structure Ran where
  terminal : Terminal
  finished : List Nat

/-- A pipeline without a junction. -/
def runSingle (before : List OpSpec) (input : List Event) : Option Ran := do
  let all := chain (buildOps before) Terminal.sink
  let st ← all.finish (runLeg all (Chain.start _ Terminal.new) input)
  return ⟨st.terminal, st.finished⟩

/-! ## Concat -/

/-- The state beneath a leg: the shared downstream, and whether it stopped. -/
structure Defer (S : Type) where
  inner : S
  downstreamStopped : Bool

/-- Leg terminal that defers `finish` to the junction's owner. -/
def Defer.sink {S : Type} (inner : Sink S Event) : Sink (Defer S) Event where
  event st ev :=
    let (s, flow) := inner.event st.inner ev
    (⟨s, st.downstreamStopped || flow == .stop⟩, flow)
  finish st := some st

/-- The legs one after another, each flushed before the next one starts, until the shared
downstream stops. -/
def concatLegs {S : Type} (before : List OpSpec) (tail : Sink S Event) :
    List (List Event) → Defer S → Option (List Nat × Defer S)
  | [], st => some ([], st)
  | input :: inputs, st => do
      let leg := chain (buildOps before) (Defer.sink tail)
      let legSt ← leg.finish (runLeg leg (Chain.start _ st) input)
      if legSt.terminal.downstreamStopped then return (legSt.finished, legSt.terminal)
      else
        let (finished, st) ← concatLegs before tail inputs legSt.terminal
        return (legSt.finished ++ finished, st)

def runConcat (before after : List OpSpec) (inputs : List (List Event)) : Option Ran := do
  let tail := chain (buildOps after) Terminal.sink
  let (finished, st) ← concatLegs before tail inputs ⟨Chain.start _ Terminal.new, false⟩
  let st ← tail.finish st.inner
  return ⟨st.terminal, finished ++ st.finished⟩

/-! ## Merge -/

/-- Leg terminal that batches events across the thread boundary. -/
structure BatchSender where
  /-- How many more sends the junction takes before it hangs up. -/
  takes : Option Nat
  sent : List EventBatch
  batch : EventBatch
  finished : Nat

namespace BatchSender

def maxItems : Nat := 1024

def maxBytes : Nat := 128 * 1024

def new (takes : Option Nat) : BatchSender := ⟨takes, [], EventBatch.empty, 0⟩

/-- A send fails once the junction has hung up. -/
def ship (st : BatchSender) : BatchSender × Flow :=
  if st.batch.len = 0 then (st, .go)
  else
    match st.takes with
    | none => ({ st with sent := st.sent ++ [st.batch], batch := EventBatch.empty }, .go)
    | some (takes + 1) =>
        (⟨some takes, st.sent ++ [st.batch], EventBatch.empty, st.finished⟩, .go)
    | some 0 => ({ st with batch := EventBatch.empty }, .stop)

def sink : Sink BatchSender Event where
  event st ev :=
    let st := { st with batch := st.batch.push ev }
    if maxItems ≤ st.batch.len ∨ maxBytes ≤ st.batch.byteLen then st.ship else (st, .go)
  finish st := some { st.ship.1 with finished := st.finished + 1 }

end BatchSender

/-- The thread of a leg.  Its sends succeed until the junction hangs up. -/
def legThread (before : List OpSpec) (takes : Option Nat) (input : List Event) :
    Option (Chain BatchSender (buildOps before)) :=
  let leg := chain (buildOps before) BatchSender.sink
  leg.finish (runLeg leg (Chain.start _ (BatchSender.new takes)) input)

/-- Batches in flight. -/
def mergeChannelDepth : Nat := 4

/-- The junction between the legs and the shared downstream. -/
structure Merge (S : Type) where
  /-- What each leg has still to send. -/
  legs : List (List EventBatch)
  channel : List EventBatch
  /-- The rest of the batch the junction is at. -/
  current : List (Option Event)
  tail : S
  stopped : Bool
  /-- What the shared downstream has been given; no step reads it. -/
  given : List Event

namespace Merge

variable {S : Type}

def start (legs : List (List EventBatch)) (s : S) : Merge S := ⟨legs, [], [], s, false, []⟩

/-- What the threads do, in any order. -/
inductive Step (tail : Sink S Event) : Merge S → Merge S → Prop where
  | send {legs legs' : List (List EventBatch)} {batch : EventBatch} {rest : List EventBatch}
      {channel : List EventBatch} {current : List (Option Event)} {s : S} {stopped : Bool}
      {given : List Event} (room : channel.length < mergeChannelDepth) :
      Step tail ⟨legs ++ (batch :: rest) :: legs', channel, current, s, stopped, given⟩
        ⟨legs ++ rest :: legs', channel ++ [batch], current, s, stopped, given⟩
  | recv {legs : List (List EventBatch)} {batch : EventBatch} {channel : List EventBatch} {s : S}
      {given : List Event} :
      Step tail ⟨legs, batch :: channel, [], s, false, given⟩
        ⟨legs, channel, batch.events, s, false, given⟩
  | event {legs : List (List EventBatch)} {channel : List EventBatch} {ev : Event}
      {current : List (Option Event)} {s s' : S} {given : List Event}
      (flow : tail.event s ev = (s', .go)) :
      Step tail ⟨legs, channel, some ev :: current, s, false, given⟩
        ⟨legs, channel, current, s', false, given ++ [ev]⟩
  | stop {legs : List (List EventBatch)} {channel : List EventBatch} {ev : Event}
      {current : List (Option Event)} {s s' : S} {given : List Event}
      (flow : tail.event s ev = (s', .stop)) :
      Step tail ⟨legs, channel, some ev :: current, s, false, given⟩
        ⟨legs, channel, current, s', true, given ++ [ev]⟩

/-- The junction hangs up: it has been told to stop, or all legs are done and the channel is
drained. -/
def Ended (m : Merge S) : Prop :=
  m.stopped = true ∨ (∀ leg ∈ m.legs, leg = []) ∧ m.channel = [] ∧ m.current = []

end Merge

/-- The batches each leg sends when the junction takes them all. -/
def mergePlans (before : List OpSpec) (inputs : List (List Event)) :
    Option (List (List EventBatch)) :=
  inputs.mapM fun input => (legThread before none input).map fun leg => leg.terminal.sent

/-- The legs' threads when they end, given what each of them has still to send when the junction
hangs up. -/
def mergeLegs (before : List OpSpec) (inputs : List (List Event)) (left : List (List EventBatch)) :
    Option (List (Chain BatchSender (buildOps before))) :=
  (inputs.zip left).mapM fun (input, rest) => do
    let whole ← legThread before none input
    legThread before (some (whole.terminal.sent.length - rest.length)) input

/-- The junction at some point of a merge whose steps were all taken where `safe` holds. -/
def MergeReaches (before after : List OpSpec)
    (safe : Merge (Chain Terminal (buildOps after)) → Prop) (inputs : List (List Event))
    (m : Merge (Chain Terminal (buildOps after))) : Prop :=
  ∃ plans, mergePlans before inputs = some plans ∧
    Relation.ReflTransGen
      (fun m m' => safe m ∧ Merge.Step (chain (buildOps after) Terminal.sink) m m')
      (Merge.start plans (Chain.start _ Terminal.new)) m

/-- The end of a run from where the junction hangs up. -/
def mergeFinish (before after : List OpSpec) (inputs : List (List Event))
    (m : Merge (Chain Terminal (buildOps after))) : Option Ran := do
  let legs ← mergeLegs before inputs m.legs
  let st ← (chain (buildOps after) Terminal.sink).finish m.tail
  return ⟨st.terminal, legs.flatMap (fun leg => leg.terminal.finished :: leg.finished)
    ++ st.finished⟩

end Graphy.Pipe
