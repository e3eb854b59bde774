import Graphy.Misc.SetUpdate
import Graphy.Store.Commit

/-!
# The write-ahead log

Logical records of the log.  A committed transaction is a `begin`, its
operations and a `commit` with the epoch; a checkpoint marks everything up to an
epoch as folded into the base.
-/

namespace Graphy

inductive WalRecord where
  | begin
  | quad (del : Bool) (q : QuadTerms)
  | commit (epoch : Nat)
  | checkpoint (freezeEpoch : Nat)
  | mergeStart (freezeEpoch : Nat)
  | mergeCommit (generation : Nat)
deriving DecidableEq, Repr

/-- A logged operation: whether a delete, and its quad. -/
abbrev WalOp := Bool × QuadTerms

/-- The update a list of logged operations stands for. -/
def opsUpdate (ops : List WalOp) : Update QuadTerms where
  dels := (ops.filter fun op => op.1).map Prod.snd
  adds := (ops.filter fun op => !op.1).map Prod.snd

inductive Durability where
  | strict
  | relaxed
deriving DecidableEq, Repr

/-- Frames of one transaction. -/
def txRecords (epoch : Nat) (ops : List WalOp) : List WalRecord :=
  .begin :: (ops.map fun op => .quad op.1 op.2) ++ [.commit epoch]

/-- Where replaying the records stands. -/
structure Replay where
  pending : Option (List WalOp)
  /-- Commits that survive the newest checkpoint. -/
  committed : List (Nat × List WalOp)
  checkpointEpoch : Nat
  /-- Records read. -/
  read : Nat
  /-- Records up to the last complete run. -/
  valid : Nat

namespace Replay

def start : Replay := ⟨none, [], 0, 0, 0⟩

/-- Take one record; `none` ends the replay at a record out of place. -/
def step (r : Replay) : WalRecord → Option Replay
  | .begin =>
      match r.pending with
      | some _ => none
      | none => some { r with pending := some [], read := r.read + 1 }
  | .quad del q =>
      match r.pending with
      | none => none
      | some ops => some { r with pending := some (ops ++ [(del, q)]), read := r.read + 1 }
  | .commit epoch =>
      match r.pending with
      | none => none
      | some ops =>
          some { r with
            pending := none
            committed := r.committed ++ [(epoch, ops)]
            read := r.read + 1
            valid := r.read + 1 }
  | .checkpoint f =>
      match r.pending with
      | some _ => none
      | none =>
          some { r with
            committed := r.committed.filter fun c => decide (f < c.1)
            checkpointEpoch := max r.checkpointEpoch f
            read := r.read + 1
            valid := r.read + 1 }
  | .mergeStart _ | .mergeCommit _ =>
      match r.pending with
      | some _ => none
      | none => some { r with read := r.read + 1, valid := r.read + 1 }

/-- Replay a log image. -/
def run (r : Replay) : List WalRecord → Replay
  | [] => r
  | record :: rest =>
      match r.step record with
      | none => r
      | some r' => r'.run rest

end Replay

/-- The committed transactions of a log, minus those a checkpoint marks as folded. -/
def replayLog (records : List WalRecord) : Replay := Replay.start.run records

variable [InlineCodec]

/-- Redo one logged transaction in a fresh delta; `log` names the log in the error. -/
def replayTx (log : String) (snap : Snapshot) (tx : Nat × List WalOp) :
    Except StoreError Snapshot :=
  if tx.1 ≤ snap.epoch then
    .error (.corrupt s!"{log} epochs not increasing ({tx.1} after {snap.epoch})")
  else do
    let u := opsUpdate tx.2
    let st ← commitCore snap u.dels u.adds Carry.none
    return { st.snap with delta := st.snap.delta.record st.entries tx.1, epoch := tx.1 }

/-- The snapshot of a base without events. -/
def Segment.freshSnapshot (base : Segment) (generation : Nat) : Snapshot where
  base := base
  delta := Delta.new base.scanOrders base.dict.nSubjects base.dict.predicates.length
    base.dict.nObjects (base.dict.graphs.length + 1)
  generation := generation
  epoch := 0

/-- The embedded segment of a store without a directory. -/
def Segment.empty : Segment where
  dict := ⟨[], [], [], [], [], []⟩
  orderings := [(.spo, ⟨0, none, [], [], [], [], none⟩), (.pos, ⟨0, none, [], [], [], [], none⟩),
    (.osp, ⟨0, some [], [], [], [], [], none⟩)]
  graphs := none
  foq := none

end Graphy
