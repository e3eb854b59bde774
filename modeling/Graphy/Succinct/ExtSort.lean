import Graphy.Misc.MinHeap
import Graphy.Succinct.Proofs.Serial
import Mathlib.Data.List.Lex
import Mathlib.Order.Fin.Basic

/-!
# External sorting

Records are buffered up to a budget, spilled as sorted runs, and merged through a heap with one
head for each run.  Too many runs for one merge are first merged in groups into fewer, larger
ones.  A run stands here for its file: what was written to it is what is read from it.
-/

namespace Graphy

/-- A fixed-size, totally ordered record that its bytes give back. -/
class Record (R : Type) [LinearOrder R] where
  size : Nat
  writeBytes : R → Bytes
  readBytes : Bytes → R
  size_pos : 0 < size
  length_writeBytes (r : R) : (writeBytes r).length = size
  readBytes_writeBytes (r : R) : readBytes (writeBytes r) = r

/-- Why a sort fails. -/
inductive SortError where
  | io (e : IoError)
  /-- The heap names a run that is not open. -/
  | noReader
deriving DecidableEq, Repr

/-- A spilled sorted run: its file, and how many records are in it. -/
structure Run where
  file : Bytes
  records : Nat
deriving DecidableEq, Repr

/-- What is left of an open run. -/
structure RunReader where
  reader : Bytes
  remaining : Nat
deriving DecidableEq, Repr

/-- A merge: the open runs, and a heap with the next record of each and the run it is from. -/
structure Merge (R : Type) [LinearOrder R] where
  readers : List RunReader
  heap : MinHeap (R ×ₗ Nat)

structure ExtSorter (R : Type) where
  maxBuffered : Nat
  buffer : List R
  runs : List Run
  /-- Merge fan-in. -/
  maxOpenRuns : Nat
deriving DecidableEq, Repr

variable {R : Type} [LinearOrder R] [Record R]

def sortUnstable (records : List R) : List R := records.insertionSort (· ≤ ·)

namespace RunReader

def openRun (run : Run) : RunReader := ⟨run.file, run.records⟩

def nextRecord (rd : RunReader) : Except SortError (Option (R × RunReader)) :=
  if rd.remaining = 0 then .ok none
  else
    match readExact (Record.size R) rd.reader with
    | .ok (bytes, reader) => .ok (some (Record.readBytes bytes, ⟨reader, rd.remaining - 1⟩))
    | .error e => .error (.io e)

end RunReader

namespace Merge

/-- Takes the first record of every run from run `i` on into the heap. -/
def prime : Nat → List RunReader → MinHeap (R ×ₗ Nat) → Except SortError (Merge R)
  | _, [], heap => .ok ⟨[], heap⟩
  | i, rd :: rest, heap => do
      match ← rd.nextRecord with
      | some (r, rd) => do
          let m ← prime (i + 1) rest (heap.push (toLex (r, i)))
          return { m with readers := rd :: m.readers }
      | none => do
          let m ← prime (i + 1) rest heap
          return { m with readers := rd :: m.readers }

def new (runs : List Run) : Except SortError (Merge R) :=
  prime 0 (runs.map RunReader.openRun) MinHeap.empty

/-- The least head, replaced by the next record of its run. -/
def nextRecord (m : Merge R) : Except SortError (Option (R × Merge R)) :=
  match m.heap.pop with
  | none => .ok none
  | some (head, heap) =>
      let source := (ofLex head).2
      match m.readers[source]? with
      | none => .error .noReader
      | some rd => do
          match ← rd.nextRecord with
          | some (next, rd) =>
              return some ((ofLex head).1,
                ⟨m.readers.set source rd, heap.push (toLex (next, source))⟩)
          | none => return some ((ofLex head).1, ⟨m.readers, heap⟩)

/-- The records of the merge until there is none, unless the fuel runs out first. -/
def drain : Nat → Merge R → Except SortError (Option (List R))
  | 0, _ => .ok none
  | fuel + 1, m => do
      match ← m.nextRecord with
      | none => return some []
      | some (r, m) => do
          let rest ← drain fuel m
          return rest.map (r :: ·)

end Merge

/-- A file of the records. -/
def writeRecords (records : List R) : Bytes := records.flatMap Record.writeBytes

namespace ExtSorter

/-- At least one record is buffered. -/
def new (memoryBudgetBytes maxOpenRuns : Nat) : ExtSorter R :=
  ⟨max (memoryBudgetBytes / Record.size R) 1, [], [], maxOpenRuns⟩

def spill (s : ExtSorter R) : ExtSorter R :=
  if s.buffer = [] then s
  else
    { s with
      runs := s.runs ++ [⟨writeRecords (sortUnstable s.buffer), s.buffer.length⟩]
      buffer := [] }

def push (s : ExtSorter R) (record : R) : ExtSorter R :=
  let s := { s with buffer := s.buffer ++ [record] }
  if s.maxBuffered ≤ s.buffer.length then s.spill else s

variable (R) in
def mergeToRun (fuel : Nat) (group : List Run) : Except SortError (Option Run) := do
  let merge : Merge R ← Merge.new group
  let merged ← merge.drain fuel
  return merged.map fun records => ⟨writeRecords records, (group.map Run.records).sum⟩

variable (R) in
/-- Collapses groups of runs until one merge has few enough. -/
def collapse (maxOpenRuns : Nat) : Nat → List Run → Except SortError (Option (List Run))
  | 0, _ => .ok none
  | fuel + 1, runs =>
      if runs.length ≤ maxOpenRuns then .ok (some runs)
      else do
        match ← mergeToRun R fuel (runs.take maxOpenRuns) with
        | none => return none
        | some merged => collapse maxOpenRuns fuel (runs.drop maxOpenRuns ++ [merged])

/-- The ascending stream of everything pushed, unless the fuel of a loop runs out. -/
def finish (fuel : Nat) (s : ExtSorter R) : Except SortError (Option (List R)) :=
  if s.runs = [] then .ok (some (sortUnstable s.buffer))
  else do
    match ← collapse R s.maxOpenRuns fuel s.spill.runs with
    | none => return none
    | some runs => do
        let merge : Merge R ← Merge.new runs
        merge.drain fuel

end ExtSorter

/-! ## The records there are -/

/-- A word as a record. -/
instance wordRecord : Record (Fin (2 ^ 64)) where
  size := 8
  writeBytes v := writeU64 v
  readBytes bytes := Fin.ofNat _ (leNat (bytes.take 8))
  size_pos := by decide
  length_writeBytes v := length_leBytes 8 v
  readBytes_writeBytes v := by
    rw [writeU64, List.take_of_length_le (length_leBytes 8 v).le,
      leNat_leBytes_of_lt (show (v : Nat) < 256 ^ 8 from v.isLt), Fin.ofNat_val_eq_self]

/-- Arrays of `n` words, compared word by word. -/
def WordArray (n : Nat) : Type := { words : List (Fin (2 ^ 64)) // words.length = n }

instance wordArrayOrder (n : Nat) : LinearOrder (WordArray n) :=
  inferInstanceAs (LinearOrder { words : List (Fin (2 ^ 64)) // words.length = n })

instance wordArrayRecord (n : Nat) : Record (WordArray (n + 1)) where
  size := 8 * (n + 1)
  writeBytes a := writeU64s (a.val.map Fin.val)
  readBytes bytes :=
    ⟨(ByteCursor.wordsOf (n + 1) bytes).map (Fin.ofNat _), by
      rw [List.length_map, ByteCursor.length_wordsOf]⟩
  size_pos := by omega
  length_writeBytes a := by
    rw [length_writeU64s, List.length_map, a.property, Nat.mul_comm]
  readBytes_writeBytes a := by
    have small : ∀ v ∈ a.val.map Fin.val, v < 2 ^ 64 := by
      intro v member
      obtain ⟨w, -, rfl⟩ := List.mem_map.mp member
      exact w.isLt
    have words := ByteCursor.wordsOf_writeU64s small []
    rw [List.append_nil, List.length_map, a.property] at words
    apply Subtype.ext
    change (ByteCursor.wordsOf (n + 1) (writeU64s (a.val.map Fin.val))).map (Fin.ofNat _) = a.val
    rw [words, List.map_map]
    exact List.map_id'' (fun w => Fin.ofNat_val_eq_self w) a.val

end Graphy
