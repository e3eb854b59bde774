import Graphy.Store.Group
import Graphy.Store.Merge
import Mathlib.Logic.Relation

/-!
# Concurrent calls on one store

Any number of `applyWith` calls and one merge at a time, interleaved at every
lock and every load.  A delta is shared memory: snapshots name it by its arc, and
the leader interns and records into it before it publishes.
-/

namespace Graphy

/-- A snapshot as shared memory has it: its delta is behind an arc. -/
structure SnapRef where
  base : Segment
  arc : Nat
  generation : Nat
  epoch : Nat
deriving DecidableEq

/-- What a call returns. -/
abbrev Answer := Except StoreError SnapRef

/-- Who takes steps: a call, or the thread inside the merge lock. -/
inductive Party where
  | call (id : Nat)
  | merge
deriving DecidableEq, Repr

/-- A transaction of the group that will be recorded, with the call it answers. -/
structure GroupTx where
  call : Nat
  tx : PlannedTx

/-- The leader's local state while it runs a group. -/
structure GroupRun where
  start : SnapRef
  plan : GroupPlan
  /-- Calls not planned yet. -/
  todo : List Nat
  planned : List GroupTx
  /-- The leader's own call, when it is in the group. -/
  mine : Option Nat
  /-- The leader's own answer. -/
  own : Option Answer

/-- A merge whose next base is built. -/
structure MergeJob where
  /-- The snapshot the merge froze. -/
  freeze : SnapRef
  newBase : Segment
  generation : Nat
  remap : SuffixRemap

/-- Where a merge stands before its exclusive section. -/
inductive MergeStage where
  /-- Has the merge lock and the snapshot to fold. -/
  | frozen (freeze : SnapRef)
  /-- The start of the merge is logged. -/
  | logged (freeze : SnapRef)
  | counted (freeze : SnapRef) (usage : Usage)
  | mapped (freeze : SnapRef) (md : MergedDict)
  | built (job : MergeJob)

/-- Where a party stands. -/
inductive Pc where
  | idle
  /-- Passed the poison check. -/
  | checked
  /-- Passed the capacity gate. -/
  | admitted
  /-- Enqueued, waiting for its slot. -/
  | waiting
  /-- Took leadership; the queue is not taken yet. -/
  | elected
  /-- Took the queue; the group is not started yet. -/
  | collected (mine : Option Nat) (own : Option Answer) (group : List Nat)
  | planning (run : GroupRun)
  /-- The log write is done; the planned transactions before `next` are answered. -/
  | answering (run : GroupRun) (written : Except String Unit) (next : Nat)
  /-- At the head of `drainLeadership`. -/
  | draining (own : Option Answer)
  | returned (answer : Answer)
  | merging (stage : MergeStage)
  /-- A merge waiting for leadership. -/
  | acquiring (job : MergeJob)
  /-- A merge in its exclusive section. -/
  | swapping (job : MergeJob)

/-- An answer as it was given, with the epoch published at that moment. -/
structure Given where
  answer : Answer
  published : Nat

structure Sys where
  current : SnapRef
  /-- The deltas by arc. -/
  deltas : Nat → Delta
  pending : List Nat
  leader : Bool
  swapWaiting : Bool
  poisoned : Bool
  hard : Nat
  /-- Whether a background merger is attached. -/
  merger : Bool
  /-- The file the next open replays. -/
  log : List WalRecord
  /-- Whether the append handle is open on that file. -/
  live : Bool
  slots : Nat → Option Answer
  pcs : Party → Pc
  /-- Every answer a call was given, in order; no step reads it. -/
  answers : Nat → List Given
  /-- Calls answered with an epoch of their own, in order; no step reads it. -/
  history : List (Nat × Nat)
  /-- Epochs published by commit groups, in order; no step reads it. -/
  published : List Nat

/-- How activating the rotated log ends. -/
inductive Activation where
  | statFailed
  | renameFailed
  | syncFailed
  | reopenFailed
deriving DecidableEq, Repr

/-- Whether the rotated log is in place when activation fails. -/
def Activation.renamed : Activation → Bool
  | .statFailed | .renameFailed => false
  | .syncFailed | .reopenFailed => true

/-- How the exclusive section of a merge ends. -/
inductive Swap where
  /-- An error before the new generation is current. -/
  | aborted
  | activationFailed (at_ : Activation)
  | published
deriving DecidableEq, Repr

/-- What a merge does between logging its start and its exclusive section. -/
inductive MergeWork where
  /-- The usage scan, in at most so many batches. -/
  | prepass (fuel : Nat)
  | mergeDictionaries
  /-- Build the next base, from a scan of at most so many batches. -/
  | build (fuel : Nat) (cfg : BuilderConfig)
  /-- Carry the suffix over up to the published epoch. -/
  | shadow

inductive Action where
  /-- A call passes the poison check or is refused by it. -/
  | enter (c : Nat)
  /-- A call passes the capacity gate. -/
  | pass (c : Nat)
  /-- A call gives up at the capacity gate. -/
  | refuse (c : Nat)
  /-- A call takes leadership or enqueues. -/
  | request (c : Nat)
  /-- A call takes its filled slot. -/
  | wake (c : Nat)
  /-- A new leader takes the queue. -/
  | collect (c : Nat)
  | start (p : Party)
  | plan (p : Party)
  /-- The group's log write. -/
  | write (p : Party) (outcome : Except String Unit)
  /-- Record and answer the next planned transaction. -/
  | answer (p : Party)
  | publish (p : Party)
  /-- Take the next group or release leadership. -/
  | drain (p : Party)
  /-- A merge takes the merge lock and the snapshot it folds.  It passed the poison check
  at some time before. -/
  | mergeStart
  /-- The log write of the merge's start. -/
  | mergeLog (outcome : Except String Unit)
  | mergeWork (work : MergeWork)
  /-- A merge fails before its exclusive section. -/
  | mergeFail
  /-- A merge takes leadership or announces that it waits for it. -/
  | acquire
  /-- A waiting merge takes free leadership. -/
  | seize
  | swap (outcome : Swap)
  /-- The budget or the attached merger changes. -/
  | configure (hard : Nat) (merger : Bool)

namespace Sys

/-- The snapshot behind a reference. -/
def deref (s : Sys) (r : SnapRef) : Snapshot := ⟨r.base, s.deltas r.arc, r.generation, r.epoch⟩

def setPc (s : Sys) (p : Party) (pc : Pc) : Sys := { s with pcs := Function.update s.pcs p pc }

def setDelta (s : Sys) (arc : Nat) (d : Delta) : Sys :=
  { s with deltas := Function.update s.deltas arc d }

/-- Note that a call is answered. -/
def note (s : Sys) (c : Nat) (a : Answer) : Sys :=
  { s with answers :=
      Function.update s.answers c (s.answers c ++ [⟨a, s.current.epoch⟩]) }

/-- Fill the slot of a follower. -/
def fill (s : Sys) (c : Nat) (a : Answer) : Sys :=
  { s.note c a with slots := Function.update s.slots c (some a) }

/-- Answer a call of the group: the leader keeps its own answer, a follower's slot
is filled. -/
def deliver (s : Sys) (run : GroupRun) (c : Nat) (a : Answer) : Sys × GroupRun :=
  if run.mine = some c then (s.note c a, { run with own := some a }) else (s.fill c a, run)

/-- Frames reach the log file only through a live handle. -/
def append (s : Sys) (frames : List WalRecord) : Sys :=
  if s.live then { s with log := s.log ++ frames } else s

end Sys

/-- The error of a call on a poisoned handle. -/
def poisonedError : StoreError :=
  .corrupt ("store handle poisoned by a failed merge swap — reopen the store " ++
    "(durable state is consistent)")

/-- The error of a call that waited for a merge in vain. -/
def backpressureTimeout (events hard : Nat) : StoreError :=
  .corrupt s!"write backpressure timed out waiting for a merge ({events} delta events ≥ hard limit {hard})"

variable [InlineCodec]

/-- Plan the next transaction of the group; one that changes nothing or fails is
answered at once. -/
def Sys.planNext (txs : Nat → Tx) (s : Sys) (p : Party) (run : GroupRun) (c : Nat)
    (rest : List Nat) : Sys :=
  let (snap, plan, outcome) := planOne s.merger (s.deref run.start) run.plan (txs c)
  let s := s.setDelta run.start.arc snap.delta
  let run := { run with plan := plan, todo := rest }
  match outcome with
  | .planned tx => s.setPc p (.planning { run with planned := run.planned ++ [⟨c, tx⟩] })
  | .unchanged =>
      let seen := if run.mine = some c then run.start else s.current
      let (s, run) := s.deliver run c (.ok seen)
      s.setPc p (.planning run)
  | .failed e =>
      let (s, run) := s.deliver run c (.error e)
      s.setPc p (.planning run)

/-- Answer one planned transaction after the log write, recording it when the write
succeeded. -/
def Sys.answerNext (s : Sys) (p : Party) (run : GroupRun) (written : Except String Unit)
    (next : Nat) (m : GroupTx) : Sys :=
  match written with
  | .error message =>
      let (s, run) := s.deliver run m.call (.error (.corrupt message))
      s.setPc p (.answering run written (next + 1))
  | .ok () =>
      let snap := (s.deref run.start).record m.tx
      let s := s.setDelta run.start.arc snap.delta
      let (s, run) := s.deliver run m.call (.ok { run.start with epoch := m.tx.epoch })
      { s with history := s.history ++ [(m.call, m.tx.epoch)] }.setPc p
        (.answering run written (next + 1))

/-- End of a group: publish the last recorded snapshot. -/
def Sys.publishGroup (s : Sys) (p : Party) (run : GroupRun) (written : Except String Unit) : Sys :=
  let s := s.setPc p (.draining run.own)
  match written, run.planned.getLast? with
  | .ok (), some m =>
      { s with
        current := { run.start with epoch := m.tx.epoch }
        published := s.published ++ [m.tx.epoch] }
  | _, _ => s

/-- One piece of a merge's work; a step that fails is not taken. -/
def Sys.mergeStep (s : Sys) : MergeWork → MergeStage → Option MergeStage
  | .prepass fuel, .logged freeze =>
      match usagePrepass fuel (s.deref freeze) with
      | .ok (some usage) => some (.counted freeze usage)
      | _ => none
  | .mergeDictionaries, .counted freeze usage =>
      match mergeDictionaries (s.deref freeze) usage with
      | .ok md => some (.mapped freeze md)
      | .error _ => none
  | .build fuel cfg, .mapped freeze md =>
      match buildMerged fuel cfg (s.deref freeze) md with
      | .ok (some newBase) =>
          let generation := freeze.generation + 1
          some (.built ⟨freeze, newBase, generation,
            SuffixRemap.new newBase generation freeze.epoch⟩)
      | _ => none
  | .shadow, .built job =>
      (job.remap.pass (s.deref job.freeze) job.newBase s.current.epoch).map fun remap =>
        .built { job with remap := remap }
  | _, _ => none

/-- End of the exclusive section of a merge, once the rest of the suffix is carried over. -/
def Sys.swapped (s : Sys) (job : MergeJob) (remap : SuffixRemap) : Swap → Sys
  | .aborted => s.setPc .merge (.draining none)
  | .activationFailed at_ =>
      let s := { s with poisoned := true }.setPc .merge (.draining none)
      if at_.renamed then { s with log := remap.stage, live := false } else s
  | .published =>
      let arc := s.current.arc + 1
      { s.setDelta arc remap.newDelta with
        log := remap.stage
        live := true
        current := ⟨job.newBase, arc, job.generation, s.current.epoch⟩ }.setPc .merge
          (.draining none)

/-- One atomic step; `txs` is the transaction each call submits. -/
def Sys.next (txs : Nat → Tx) (s : Sys) : Action → Option Sys
  | .enter c =>
      match s.pcs (.call c) with
      | .idle =>
          if s.poisoned then
            some ((s.note c (.error poisonedError)).setPc (.call c) (.returned (.error poisonedError)))
          else some (s.setPc (.call c) .checked)
      | _ => none
  | .pass c =>
      match s.pcs (.call c) with
      | .checked =>
          if (s.deref s.current).delta.events < s.hard then some (s.setPc (.call c) .admitted)
          else none
      | _ => none
  | .refuse c =>
      match s.pcs (.call c) with
      | .checked =>
          let events := (s.deref s.current).delta.events
          if s.hard ≤ events then
            let e := if s.merger then backpressureTimeout events s.hard
              else budgetExhausted events s.hard
            some ((s.note c (.error e)).setPc (.call c) (.returned (.error e)))
          else none
      | _ => none
  | .request c =>
      match s.pcs (.call c) with
      | .admitted =>
          if s.leader ∨ s.swapWaiting then
            some ({ s with pending := s.pending ++ [c] }.setPc (.call c) .waiting)
          else some ({ s with leader := true }.setPc (.call c) .elected)
      | _ => none
  | .wake c =>
      match s.pcs (.call c), s.slots c with
      | .waiting, some a =>
          some ({ s with slots := Function.update s.slots c none }.setPc (.call c) (.returned a))
      | _, _ => none
  | .collect c =>
      match s.pcs (.call c) with
      | .elected =>
          some ({ s with pending := [] }.setPc (.call c)
            (.collected (some c) none (c :: s.pending)))
      | _ => none
  | .start p =>
      match s.pcs p with
      | .collected mine own group =>
          some (s.setPc p (.planning {
            start := s.current
            plan := GroupPlan.start (s.deref s.current) s.hard
            todo := group
            planned := []
            mine := mine
            own := own }))
      | _ => none
  | .plan p =>
      match s.pcs p with
      | .planning run =>
          match run.todo with
          | [] => none
          | c :: rest => some (s.planNext txs p run c rest)
      | _ => none
  | .write p outcome =>
      match s.pcs p with
      | .planning run =>
          match run.todo, outcome with
          | [], .ok () => some ((s.append run.plan.frames).setPc p (.answering run outcome 0))
          | [], .error _ => some (s.setPc p (.answering run outcome 0))
          | _, _ => none
      | _ => none
  | .answer p =>
      match s.pcs p with
      | .answering run written next =>
          match run.planned[next]? with
          | some m => some (s.answerNext p run written next m)
          | none => none
      | _ => none
  | .publish p =>
      match s.pcs p with
      | .answering run written next =>
          if next = run.planned.length then some (s.publishGroup p run written) else none
      | _ => none
  | .drain p =>
      match s.pcs p with
      | .draining own =>
          if s.pending = [] ∨ s.swapWaiting then
            match p, own with
            | .call _, some a => some ({ s with leader := false }.setPc p (.returned a))
            | .merge, _ => some ({ s with leader := false }.setPc p .idle)
            | .call _, none => none
          else some ({ s with pending := [] }.setPc p (.collected none own s.pending))
      | _ => none
  | .mergeStart =>
      match s.pcs .merge with
      | .idle => some (s.setPc .merge (.merging (.frozen s.current)))
      | _ => none
  | .mergeLog outcome =>
      match s.pcs .merge, outcome with
      | .merging (.frozen freeze), .ok () =>
          some ((s.append [.mergeStart freeze.epoch]).setPc .merge (.merging (.logged freeze)))
      | .merging (.frozen _), .error _ => some (s.setPc .merge .idle)
      | _, _ => none
  | .mergeWork work =>
      match s.pcs .merge with
      | .merging stage =>
          (s.mergeStep work stage).map fun stage => s.setPc .merge (.merging stage)
      | _ => none
  | .mergeFail =>
      match s.pcs .merge with
      | .merging _ => some (s.setPc .merge .idle)
      | _ => none
  | .acquire =>
      match s.pcs .merge with
      | .merging (.built job) =>
          if s.leader then some ({ s with swapWaiting := true }.setPc .merge (.acquiring job))
          else some ({ s with leader := true }.setPc .merge (.swapping job))
      | _ => none
  | .seize =>
      match s.pcs .merge with
      | .acquiring job =>
          if s.leader then none
          else some ({ s with swapWaiting := false, leader := true }.setPc .merge (.swapping job))
      | _ => none
  | .swap outcome =>
      match s.pcs .merge with
      | .swapping job =>
          if outcome = .aborted then some (s.swapped job job.remap .aborted)
          else
            (job.remap.pass (s.deref s.current) job.newBase s.current.epoch).map fun remap =>
              s.swapped job remap outcome
      | _ => none
  | .configure hard merger => some { s with hard := hard, merger := merger }

/-- Take the steps of a list in order. -/
def Sys.run (txs : Nat → Tx) : List Action → Sys → Option Sys
  | [], s => some s
  | a :: rest, s => (s.next txs a).bind (Sys.run txs rest)

end Graphy
