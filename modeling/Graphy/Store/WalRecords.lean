import Graphy.Store.Wal
import Graphy.Store.WalBytes

/-!
# Records as bytes

Every logical record is the payload of one frame, so that a log is the frames of
its records one after the other.
-/

namespace Graphy

namespace WalBytes

/-- A logged operation with its own terms. -/
def WalOp.ofTerms (op : Graphy.WalOp) : WalOp := ⟨op.1, op.2.s, op.2.p, op.2.o, op.2.g⟩

/-- The operation over terms that are borrowed from it. -/
def WalOp.borrowed (op : WalOp) : Graphy.WalOp := (op.del, ⟨op.s, op.p, op.o, op.g⟩)

end WalBytes

namespace WalRecord

open WalBytes

def payload : WalRecord → Bytes
  | .begin => [tagBegin]
  | .quad del q => opPayload (.ofTerms (del, q))
  | .commit epoch => wordPayload tagCommit epoch
  | .checkpoint freezeEpoch => wordPayload tagCheckpoint freezeEpoch
  | .mergeStart freezeEpoch => wordPayload tagMergeStart freezeEpoch
  | .mergeCommit generation => wordPayload tagMergeCommit generation

/-- Records whose payload length and words the format can hold. -/
def InRange : WalRecord → Prop
  | .begin => True
  | .quad del q => (opPayload (.ofTerms (del, q))).length < 2 ^ 32
  | .commit v | .checkpoint v | .mergeStart v | .mergeCommit v => v < 2 ^ 64

instance (record : WalRecord) : Decidable record.InRange := by
  cases record <;> unfold InRange <;> infer_instance

end WalRecord

/-- The frames of some records. -/
def logBytes (hash : Bytes → UInt64) (records : List WalRecord) : Bytes :=
  records.flatMap fun record => WalBytes.frame hash record.payload

end Graphy
