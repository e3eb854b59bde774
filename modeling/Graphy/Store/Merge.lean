import Graphy.Store.DictMerge
import Graphy.Store.Wal

/-!
# Merging a generation

The next base is built from the frozen snapshot through the merged dictionary.  The events
that land meanwhile, the suffix, are carried over in passes: each takes the epochs since the
one before it, finds or interns their terms in the next generation, records them at their
own epochs and stages them for the rotated log.
-/

namespace Graphy

/-- One suffix epoch: its entries in the next generation, and its logged operations. -/
abbrev SuffixTx := List (QuadKey × DeltaKind) × List WalOp

/-- Where carrying the suffix over stands. -/
structure SuffixRemap where
  newDelta : Delta
  /-- The staged log. -/
  stage : List WalRecord
  /-- New value and bytes of an old column value, per position. -/
  maps : TermPos → Col → Option (Col × Bytes)
  /-- Epochs up to the mark are carried over. -/
  mark : Nat

variable [InlineCodec]

/-- Build the next base from the frozen snapshot, unless the fuel of the scan runs out. -/
def buildMerged (fuel : Nat) (cfg : BuilderConfig) (snap : Snapshot) (md : MergedDict) :
    Except StoreError (Option Segment) := do
  let scan ← snap.scan {} .spo
  match ← scan.rows fuel with
  | none => return none
  | some rows =>
      let source ← rows.mapM md.mapQuad
      match buildFromIds cfg md.dict source with
      | .error m => throw (.corrupt m)
      | .ok seg => return some seg

namespace SuffixRemap

def new (newBase : Segment) (generation freezeEpoch : Nat) : SuffixRemap where
  newDelta := Delta.new newBase.scanOrders newBase.dict.nSubjects newBase.dict.predicates.length
    newBase.dict.nObjects (newBase.dict.graphs.length + 1)
  stage := [.mergeCommit generation, .checkpoint freezeEpoch]
  maps := fun _ _ => none
  mark := freezeEpoch

/-- New value of an old one and its bytes; `none` is the error of a value without a term,
which ends the merge.  A predicate or graph name is interned without an identity of another
position. -/
def column (old : Snapshot) (newBase : Segment) (st : SuffixRemap) (v : Col) (pos : TermPos) :
    Option (SuffixRemap × Col × Bytes) :=
  match st.maps pos v with
  | some e => some (st, e)
  | none =>
      (old.decodeValue v pos).map fun b =>
        let (delta, w) :=
          match newBase.resolveColumn b pos with
          | some w => (st.newDelta, w)
          | none => internOverlay newBase st.newDelta b pos
        ({ st with
            newDelta := delta
            maps := fun p u => if p = pos ∧ u = v then some (w, b) else st.maps p u }, w, b)

/-- The key of an event in the next generation, with its terms; the default graph is column
0 in every generation. -/
def key (old : Snapshot) (newBase : Segment) (st : SuffixRemap) (k : QuadKey) :
    Option (SuffixRemap × QuadKey × QuadTerms) := do
  let (st, s, sb) ← st.column old newBase k.s .subject
  let (st, p, pb) ← st.column old newBase k.p .predicate
  let (st, o, ob) ← st.column old newBase k.o .object
  if k.g = Col.dict 0 then return (st, ⟨s, p, o, Col.dict 0⟩, ⟨sb, pb, ob, none⟩)
  else
    let (st, g, gb) ← st.column old newBase k.g .graph
    return (st, ⟨s, p, o, g⟩, ⟨sb, pb, ob, some gb⟩)

/-- Carry one event over to the transaction of its epoch. -/
def event (old : Snapshot) (newBase : Segment) (acc : SuffixRemap × OrderedMap Nat SuffixTx)
    (e : QuadKey × DeltaKind × Nat) : Option (SuffixRemap × OrderedMap Nat SuffixTx) := do
  let (st, k, q) ← acc.1.key old newBase e.1
  return (st, acc.2.alter e.2.2 fun tx =>
    ((tx.getD ([], [])).1 ++ [(k, e.2.1)],
      (tx.getD ([], [])).2 ++ [(decide (e.2.1 = .tombstone), q)]))

/-- Carry the events over that are above the mark, up to an epoch. -/
def pass (old : Snapshot) (newBase : Segment) (st : SuffixRemap) (upto : Nat) :
    Option SuffixRemap :=
  if upto ≤ st.mark then some st
  else do
    let (st, byEpoch) ← (old.delta.collectSuffix st.mark upto).foldlM (event old newBase)
      ({ st with mark := upto }, OrderedMap.empty)
    return { st with
      newDelta := byEpoch.entries.foldl (fun d e => d.record e.2.1 e.1) st.newDelta
      stage := st.stage ++ byEpoch.entries.flatMap fun e => txRecords e.1 e.2.2 }

end SuffixRemap

end Graphy
