import Graphy.Store.WalRecords
import Graphy.Store.Proofs.WalBytes

/-!
# Replay of records and of bytes

Replaying the frames of some records does what replaying the records does: it
stops at the same record, delivers the same transactions, and its valid prefix
ends where the last complete run of records does.
-/

namespace Graphy

open WalBytes

@[simp] theorem WalBytes.WalOp.borrowed_ofTerms (op : Graphy.WalOp) :
    (WalBytes.WalOp.ofTerms op).borrowed = op := rfl

theorem logBytes_append (hash : Bytes → UInt64) (a b : List WalRecord) :
    logBytes hash (a ++ b) = logBytes hash a ++ logBytes hash b := List.flatMap_append

@[simp] theorem logBytes_nil (hash : Bytes → UInt64) : logBytes hash [] = [] := rfl

/-- Appending a transaction writes the frames of its records. -/
theorem appendTxTerms_eq (hash : Bytes → UInt64) (pending : Bytes) (epoch : Nat)
    (ops : List Graphy.WalOp) : appendTxTerms hash pending epoch (ops.map WalBytes.WalOp.ofTerms) =
      pending ++ logBytes hash (txRecords epoch ops) := by
  have call := Append.write_eq hash pending (.tx epoch (ops.map WalBytes.WalOp.ofTerms))
  refine call.trans (congrArg (pending ++ ·) ?_)
  simp only [Append.payloads, frames, logBytes, txRecords, List.cons_append, List.flatMap_cons,
    List.flatMap_append, List.flatMap_map, WalRecord.payload, List.flatMap_nil]

namespace WalRecord

theorem length_terms_le (op : WalBytes.WalOp) : op.s.length ≤ (opPayload op).length ∧
    op.p.length ≤ (opPayload op).length ∧ op.o.length ≤ (opPayload op).length ∧
    ∀ t ∈ op.g, t.length ≤ (opPayload op).length := by
  have sum : (opPayload op).length =
      2 + (4 + op.s.length) + (4 + op.p.length) + (4 + op.o.length) + (putGraph op.g).length := by
    simp only [opPayload, List.length_cons, List.length_append, length_putBytes]
    omega
  refine ⟨by omega, by omega, by omega, ?_⟩
  intro t named
  have some_ : op.g = some t := named
  rw [some_] at sum
  simp only [putGraph, List.length_cons, length_putBytes] at sum
  omega

theorem framed_payload {record : WalRecord} (h : record.InRange) : Framed record.payload := by
  cases record with
  | begin => exact framed_begin
  | quad del q => exact ⟨by simp [payload, opPayload], h⟩
  | commit | checkpoint | mergeStart | mergeCommit => exact framed_wordPayload _ _

theorem shortTerms {del : Bool} {q : QuadTerms} (h : (quad del q).InRange) :
    (WalBytes.WalOp.ofTerms (del, q)).ShortTerms := by
  obtain ⟨s, p, o, g⟩ := length_terms_le (.ofTerms (del, q))
  exact ⟨lt_of_le_of_lt s h, lt_of_le_of_lt p h, lt_of_le_of_lt o h,
    fun t named => lt_of_le_of_lt (g t named) h⟩

end WalRecord

/-- Bytes of the first records. -/
def recordsSize (records : List WalRecord) : Nat :=
  totalSize frameSize (records.map WalRecord.payload)

/-- The bytes read so far stand for the records `seen`. -/
structure ReadRecords (b : ReplayState) (r : Replay) (seen : List WalRecord) : Prop where
  pending : b.pending = r.pending.map (List.map WalBytes.WalOp.ofTerms)
  committed : b.committed = r.committed.map fun tx => (tx.1, tx.2.map WalBytes.WalOp.ofTerms)
  checkpointEpoch : b.checkpointEpoch = r.checkpointEpoch
  read : r.read = seen.length
  within : r.valid ≤ seen.length
  valid : b.valid = recordsSize (seen.take r.valid)

theorem recordsSize_concat (seen : List WalRecord) (record : WalRecord) :
    recordsSize (seen ++ [record]) = recordsSize seen + 12 + record.payload.length := by
  simp [recordsSize, totalSize, frameSize, Nat.add_assoc]

namespace ReadRecords

variable {b : ReplayState} {r : Replay} {seen : List WalRecord}

theorem pending_none (reads : ReadRecords b r seen) (h : r.pending = none) : b.pending = none := by
  rw [reads.pending, h]
  rfl

theorem pending_some (reads : ReadRecords b r seen) {ops : List Graphy.WalOp} (h : r.pending = some ops) :
    b.pending = some (ops.map WalBytes.WalOp.ofTerms) := by
  rw [reads.pending, h]
  rfl

/-- A valid prefix stays where it was when more records are read. -/
theorem take_concat (reads : ReadRecords b r seen) (record : WalRecord) :
    (seen ++ [record]).take r.valid = seen.take r.valid :=
  List.take_append_of_le_length reads.within

/-- One record of bytes: replay stops where the records stop, and otherwise goes on. -/
theorem step (reads : ReadRecords b r seen) (ctx : String) {record : WalRecord}
    (range : record.InRange) (recEnd : Nat) (at_ : recEnd = recordsSize (seen ++ [record])) :
    match r.step record with
    | none => b.step ctx recEnd record.payload = .ok none
    | some r' => ∃ b', b.step ctx recEnd record.payload = .ok (some b') ∧
        ReadRecords b' r' (seen ++ [record]) ∧ b'.pos = recEnd := by
  have count : r.read + 1 = (seen ++ [record]).length := by
    rw [reads.read, List.length_append, List.length_singleton]
  have whole : (seen ++ [record]).take (r.read + 1) = seen ++ [record] := by
    rw [count, List.take_length]
  have further : r.valid ≤ (seen ++ [record]).length := by
    rw [← count, reads.read]
    exact le_trans reads.within (Nat.le_succ _)
  have upTo : recEnd = recordsSize ((seen ++ [record]).take (r.read + 1)) := by rw [whole, at_]
  have before : b.valid = recordsSize ((seen ++ [record]).take r.valid) := by
    rw [reads.take_concat, reads.valid]
  cases record with
  | begin =>
      cases open_ : r.pending with
      | some ops =>
          have here := reads.pending_some open_
          simp only [Replay.step, open_]
          simp [ReplayState.step, here, WalRecord.payload]
      | none =>
          have here := reads.pending_none open_
          simp only [Replay.step, open_]
          exact ⟨_, ReplayState.step_begin here ctx recEnd,
            ⟨rfl, reads.committed, reads.checkpointEpoch, count, further, before⟩, rfl⟩
  | quad del q =>
      cases open_ : r.pending with
      | none =>
          have here := reads.pending_none open_
          simp only [Replay.step, open_]
          simp [ReplayState.step, here, WalRecord.payload, opPayload, tagQuad, tagBegin]
      | some ops =>
          have here := reads.pending_some open_
          simp only [Replay.step, open_]
          refine ⟨_, ReplayState.step_quad here ctx recEnd (WalRecord.shortTerms range),
            ⟨?_, reads.committed, reads.checkpointEpoch, count, further, before⟩, rfl⟩
          simp
  | commit epoch =>
      cases open_ : r.pending with
      | none =>
          have here := reads.pending_none open_
          simp only [Replay.step, open_]
          simp [ReplayState.step, here, WalRecord.payload, wordPayload, tagCommit, tagQuad, tagBegin]
      | some ops =>
          have here := reads.pending_some open_
          simp only [Replay.step, open_]
          refine ⟨_, ReplayState.step_commit here ctx recEnd range,
            ⟨rfl, ?_, reads.checkpointEpoch, count, le_of_eq count, upTo⟩, rfl⟩
          simp [reads.committed]
  | checkpoint freezeEpoch =>
      cases open_ : r.pending with
      | some ops =>
          have here := reads.pending_some open_
          simp only [Replay.step, open_]
          simp [ReplayState.step, here, WalRecord.payload, wordPayload, tagCheckpoint, tagCommit,
            tagQuad, tagBegin]
      | none =>
          have here := reads.pending_none open_
          simp only [Replay.step, open_]
          refine ⟨_, ReplayState.step_checkpoint here ctx recEnd range,
            ⟨?_, ?_, ?_, count, le_of_eq count, upTo⟩, rfl⟩
          · rw [here]
            rfl
          · simp [reads.committed, List.filter_map, Function.comp_def]
          · simp [reads.checkpointEpoch]
  | mergeStart freezeEpoch =>
      cases open_ : r.pending with
      | some ops =>
          have here := reads.pending_some open_
          simp only [Replay.step, open_]
          simp [ReplayState.step, here, WalRecord.payload, wordPayload, tagMergeStart, tagCheckpoint,
            tagCommit, tagQuad, tagBegin]
      | none =>
          have here := reads.pending_none open_
          simp only [Replay.step, open_]
          exact ⟨_, ReplayState.step_mark here ctx recEnd (.inl rfl) _,
            ⟨here, reads.committed, reads.checkpointEpoch, count, le_of_eq count, upTo⟩, rfl⟩
  | mergeCommit generation =>
      cases open_ : r.pending with
      | some ops =>
          have here := reads.pending_some open_
          simp only [Replay.step, open_]
          simp [ReplayState.step, here, WalRecord.payload, wordPayload, tagMergeStart, tagMergeCommit,
            tagCheckpoint, tagCommit, tagQuad, tagBegin]
      | none =>
          have here := reads.pending_none open_
          simp only [Replay.step, open_]
          exact ⟨_, ReplayState.step_mark here ctx recEnd (.inr rfl) _,
            ⟨here, reads.committed, reads.checkpointEpoch, count, le_of_eq count, upTo⟩, rfl⟩

end ReadRecords

/-- Replaying frames of records does what replaying the records does. -/
theorem replayFrom_logBytes (hash : Bytes → UInt64) (ctx : String) {b : ReplayState} {r : Replay}
    {seen : List WalRecord} (reads : ReadRecords b r seen) (at_ : b.pos = recordsSize seen)
    {records : List WalRecord} (range : ∀ record ∈ records, record.InRange) :
    ∃ b', replayFrom hash ctx b (logBytes hash records) = .ok b' ∧
      b'.committed = (r.run records).committed.map
        (fun tx => (tx.1, tx.2.map WalBytes.WalOp.ofTerms)) ∧
      b'.checkpointEpoch = (r.run records).checkpointEpoch ∧
      b'.valid = recordsSize ((seen ++ records).take (r.run records).valid) := by
  induction records generalizing b r seen with
  | nil =>
      exact ⟨b, replayFrom_nil hash ctx b, reads.committed, reads.checkpointEpoch,
        by rw [List.append_nil]; exact reads.valid⟩
  | cons record records ih =>
      have framed := WalRecord.framed_payload (range record List.mem_cons_self)
      have end_ : b.pos + 12 + record.payload.length = recordsSize (seen ++ [record]) := by
        rw [recordsSize_concat, at_]
      have one := reads.step ctx (range record List.mem_cons_self) _ end_
      have bytes : logBytes hash (record :: records) =
          frame hash record.payload ++ logBytes hash records := rfl
      rw [bytes, replayFrom_frame hash ctx b framed, Replay.run]
      cases next : r.step record with
      | none =>
          rw [next] at one
          simp only at one
          rw [one]
          refine ⟨b, rfl, reads.committed, reads.checkpointEpoch, ?_⟩
          rw [reads.valid, List.take_append_of_le_length reads.within]
      | some r' =>
          rw [next] at one
          obtain ⟨b', taken, reads', pos⟩ := one
          rw [taken]
          obtain ⟨last, run, committed, checkpoint, valid⟩ := ih reads' (by rw [pos, end_])
            fun record' mem => range record' (List.mem_cons_of_mem _ mem)
          refine ⟨last, run, committed, checkpoint, ?_⟩
          rw [valid, List.append_assoc, List.singleton_append]

theorem length_logBytes (hash : Bytes → UInt64) (records : List WalRecord) :
    (logBytes hash records).length = recordsSize records := by
  rw [recordsSize, ← length_frames hash, frames, logBytes, List.flatMap_map]

theorem ReadRecords.start : ReadRecords .start .start [] :=
  ⟨rfl, rfl, rfl, rfl, Nat.le_refl _, rfl⟩

/-- The bytes of a log deliver what its records deliver. -/
theorem replayBytes_logBytes (hash : Bytes → UInt64) {records : List WalRecord}
    (range : ∀ record ∈ records, record.InRange) :
    Delivers hash (logBytes hash records)
      ((replayLog records).committed.map fun tx => (tx.1, tx.2.map WalBytes.WalOp.ofTerms))
      ⟨(logBytes hash (records.take (replayLog records).valid)).length,
        (replayLog records).checkpointEpoch⟩ := by
  refine delivers_of_replay hash (r := ⟨0, _, none, _, _⟩) fun ctx => ?_
  obtain ⟨b, run, committed, checkpoint, valid⟩ := replayFrom_logBytes hash ctx .start rfl range
  refine ⟨b, run, ?_, committed, checkpoint⟩
  rw [length_logBytes]
  exact valid

end Graphy
