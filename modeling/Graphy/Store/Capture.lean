import Graphy.Store.Group
import Graphy.Store.Scan
import Graphy.Store.WalRecords

/-!
# Captured logs

A store without a directory keeps the frames of its commits until the host drains
them into a durable log of its own.  Packing gives the host an image to replace that
log with: the whole dataset as one transaction.
-/

namespace Graphy

/-- The frames of a list of transactions. -/
def logRecords (txs : List (Nat × List WalOp)) : List WalRecord :=
  txs.flatMap fun tx => txRecords tx.1 tx.2

variable (hash : Bytes → UInt64)

section Store

variable [InlineCodec]

/-- Replay a captured log over a base, with the length of its valid prefix. -/
def enableCapture (base : Segment) (generation : Nat) (log : Bytes) :
    Except StoreError (Snapshot × Nat) := do
  let (snap, replayed) ← WalBytes.replayBytes hash log "<captured wal>"
    (fun snap epoch ops => replayTx "captured WAL" snap (epoch, ops.map WalBytes.WalOp.borrowed))
    (base.freshSnapshot generation)
  return (snap, replayed.validLen)

/-- The add operations of decoded rows. -/
def packOps (snap : Snapshot) (rows : List QuadKey) : Option (List WalOp) :=
  rows.mapM fun k => (snap.decodeKey k).map fun q => (false, q)

/-- One transaction at the snapshot's epoch, or 1; nothing without operations. -/
def packImage (epoch : Nat) (ops : List WalOp) : List WalRecord :=
  if ops = [] then [] else txRecords (max epoch 1) ops

/-- The image a snapshot packs into: the decoded rows of a scan of everything. -/
def Snapshot.PackLog (snap : Snapshot) (image : List WalRecord) : Prop :=
  ∃ scan batches ops, snap.scan {} .spo = .ok scan ∧
    scan.Yields QuadBatch.batchCapacity batches ∧ packOps snap batches.flatten = some ops ∧
    image = packImage snap.epoch ops

/-- A store in capture mode and the durable log of its host. -/
structure Capture where
  snap : Snapshot
  /-- Committed frames since the last drain. -/
  captured : Bytes
  durable : Bytes

namespace Capture

/-- Record the planned transactions of a group in order. -/
def recordPlanned (snap : Snapshot) (outcomes : List (PlanOutcome × Snapshot)) : Snapshot :=
  outcomes.foldl (fun snap o =>
    match o.1 with
    | .planned tx => snap.record tx
    | _ => snap) snap

/-- Records a group of commits writes. -/
def records (s : Capture) (hard : Nat) (members : List Member) : List WalRecord :=
  (planAll s.snap (GroupPlan.start s.snap hard) members).2.1.frames

/-- Run a group of commits; a log in capture mode takes every write. -/
def commit (s : Capture) (hard : Nat) (members : List Member) : Capture :=
  let (last, plan, outcomes) := planAll s.snap (GroupPlan.start s.snap hard) members
  { s with
    snap := recordPlanned last outcomes
    captured := s.captured ++ logBytes hash plan.frames }

/-- Drain the captured frames into the durable log. -/
def drain (s : Capture) : Capture :=
  { s with
    captured := []
    durable := s.durable ++ s.captured }

/-- A final drain and a restore over the same base read the whole log and give the dataset
of the store. -/
def Restores (s : Capture) (base : Segment) (generation : Nat) : Prop :=
  ∃ snap, enableCapture hash base generation s.drain.durable =
      .ok (snap, s.drain.durable.length) ∧
    ∀ q, snap.Contains q ↔ s.snap.Contains q

end Capture

/-- What the last call that packed the log found, and what came after it. -/
structure Packing where
  /-- The quads it packed. -/
  shown : Set QuadTerms
  /-- Epoch of the snapshot it packed. -/
  epoch : Nat
  /-- Frames captured before it and not drained yet. -/
  undrained : Bytes
  /-- Records written since. -/
  later : List WalRecord

namespace Capture

/-- Runs of a capture-mode store over a base, with the last packing: opened with a
durable log, then commits, drains and packings in any order.  Every record that is
written fits the format. -/
inductive Run (base : Segment) (generation : Nat) : Capture → Option Packing → Prop where
  | opened {txs : List (Nat × List WalOp)} {snap : Snapshot} {consumed : Nat}
      (fits : ∀ record ∈ logRecords txs, record.InRange)
      (restored : enableCapture hash base generation (logBytes hash (logRecords txs)) =
        .ok (snap, consumed)) :
      Run base generation ⟨snap, [], logBytes hash (logRecords txs)⟩ none
  | commit {s : Capture} {p : Option Packing} (hard : Nat) (members : List Member)
      (fits : ∀ record ∈ s.records hard members, record.InRange)
      (run : Run base generation s p) :
      Run base generation (s.commit hash hard members)
        (p.map fun p => { p with later := p.later ++ s.records hard members })
  | drain {s : Capture} {p : Option Packing} (run : Run base generation s p) :
      Run base generation s.drain p
  | pack {s : Capture} {p : Option Packing} {image : List WalRecord}
      (packed : s.snap.PackLog image) (fits : ∀ record ∈ image, record.InRange)
      (run : Run base generation s p) :
      Run base generation { s with durable := logBytes hash image }
        (some ⟨{q | s.snap.Contains q}, s.snap.epoch, s.captured, []⟩)

end Capture

/-- The updates of some transactions over the quads a dictionary stores. -/
def txUpdates (dict : Dictionary) (txs : List (Nat × List WalOp)) : List (Update QuadTerms) :=
  txs.map fun tx => (opsUpdate tx.2).map (QuadTerms.named dict)

namespace Packing

/-- The dataset a log leaves. -/
def applyLog (dict : Dictionary) (log : Bytes) (d : Set QuadTerms) : Set QuadTerms :=
  match WalBytes.replayFrom hash "<captured wal>" .start log with
  | .error _ => d
  | .ok r => Update.applyAll
      (txUpdates dict (r.committed.map fun tx => (tx.1, tx.2.map WalBytes.WalOp.borrowed))) d

/-- Whether an operation written since names the quad. -/
def Rewritten (p : Packing) (dict : Dictionary) (q : QuadTerms) : Prop :=
  ∃ del given, WalRecord.quad del given ∈ p.later ∧ given.named dict = q

/-- When the packed log stands for the store: without quads, everything the frames not
drained yet leave of the base has been written since; with quads, every frame was drained,
nothing is written after a packing at epoch 0, and every base quad that was gone has been
written since. -/
def Faithful (p : Packing) (dict : Dictionary) (base : Set QuadTerms) : Prop :=
  (p.shown = ∅ → ∀ q ∈ applyLog hash dict p.undrained base, p.Rewritten dict q) ∧
    (p.shown ≠ ∅ → p.undrained = [] ∧ (p.epoch = 0 → p.later = []) ∧
      ∀ q ∈ base, q ∉ p.shown → p.Rewritten dict q)

end Packing

end Store

end Graphy
