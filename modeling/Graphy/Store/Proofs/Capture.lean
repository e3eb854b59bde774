import Graphy.Store.Capture
import Graphy.Store.Proofs.GroupAnswers
import Graphy.Store.Proofs.SnapshotScan
import Graphy.Store.Proofs.WalRecords

/-!
# Restoring from a captured log

A durable log is a list of transactions.  Replaying it fails on an epoch that does
not increase and otherwise applies the updates in turn; a packed log starts the list
with one transaction that adds the dataset and removes nothing.
-/

namespace Graphy

/-! ## Logs of transactions -/

theorem logRecords_append (a b : List (Nat × List WalOp)) :
    logRecords (a ++ b) = logRecords a ++ logRecords b := List.flatMap_append

/-- Reading the operations of an open transaction. -/
theorem Replay.run_quads (r : Replay) {tx : List WalOp} (opened : r.pending = some tx)
    (ops : List WalOp) (rest : List WalRecord) :
    r.run ((ops.map fun op => WalRecord.quad op.1 op.2) ++ rest) =
      Replay.run { r with pending := some (tx ++ ops), read := r.read + ops.length } rest := by
  induction ops generalizing r tx with
  | nil =>
      obtain ⟨pending, committed, checkpointEpoch, read, valid⟩ := r
      cases opened
      simp
  | cons op ops ih =>
      have step : r.step (.quad op.1 op.2) =
          some { r with pending := some (tx ++ [op]), read := r.read + 1 } := by
        simp only [Replay.step, opened]
      rw [List.map_cons, List.cons_append, Replay.run, step]
      simp only
      rw [ih _ rfl]
      simp only [List.append_assoc, List.singleton_append, List.length_cons]
      congr 2
      omega

/-- Reading one transaction. -/
theorem Replay.run_tx (r : Replay) (idle : r.pending = none) (tx : Nat × List WalOp)
    (rest : List WalRecord) : r.run (txRecords tx.1 tx.2 ++ rest) =
      Replay.run { r with
        committed := r.committed ++ [tx]
        read := r.read + (txRecords tx.1 tx.2).length
        valid := r.read + (txRecords tx.1 tx.2).length } rest := by
  have opened : r.step .begin = some { r with pending := some [], read := r.read + 1 } := by
    simp only [Replay.step, idle]
  have total : (txRecords tx.1 tx.2).length = 1 + tx.2.length + 1 := by
    simp [txRecords, Nat.add_comm]
  rw [total, txRecords, List.append_assoc, List.cons_append, Replay.run, opened]
  simp only
  rw [Replay.run_quads _ rfl]
  obtain ⟨pending, committed, checkpointEpoch, read, valid⟩ := r
  cases idle
  simp only [List.nil_append, List.singleton_append, Replay.run, Replay.step, Nat.add_assoc]

theorem Replay.run_log (r : Replay) (idle : r.pending = none) (settled : r.valid = r.read)
    (txs : List (Nat × List WalOp)) : (r.run (logRecords txs)).committed = r.committed ++ txs ∧
      (r.run (logRecords txs)).valid = r.read + (logRecords txs).length := by
  induction txs generalizing r with
  | nil => exact ⟨by simp [logRecords, Replay.run], by simpa [logRecords, Replay.run] using settled⟩
  | cons tx txs ih =>
      have split : logRecords (tx :: txs) = txRecords tx.1 tx.2 ++ logRecords txs := rfl
      obtain ⟨committed, valid⟩ := ih { r with
        committed := r.committed ++ [tx]
        read := r.read + (txRecords tx.1 tx.2).length
        valid := r.read + (txRecords tx.1 tx.2).length } idle rfl
      rw [split, r.run_tx idle tx, committed, valid, List.length_append, List.append_assoc,
        List.singleton_append, Nat.add_assoc]
      exact ⟨rfl, rfl⟩

theorem committed_logRecords (txs : List (Nat × List WalOp)) :
    (replayLog (logRecords txs)).committed = txs :=
  (Replay.run_log Replay.start rfl rfl txs).1

theorem valid_logRecords (txs : List (Nat × List WalOp)) :
    (replayLog (logRecords txs)).valid = (logRecords txs).length :=
  (Replay.run_log Replay.start rfl rfl txs).2.trans (Nat.zero_add _)

theorem map_borrowed_ofTerms (txs : List (Nat × List WalOp)) :
    (txs.map fun tx => (tx.1, tx.2.map WalBytes.WalOp.ofTerms)).map
      (fun tx => (tx.1, tx.2.map WalBytes.WalOp.borrowed)) = txs := by
  simp [List.map_map, Function.comp_def]

/-- The quads a log names. -/
theorem mem_logRecords {txs : List (Nat × List WalOp)} {del : Bool} {q : QuadTerms} :
    WalRecord.quad del q ∈ logRecords txs ↔ ∃ tx ∈ txs, (del, q) ∈ tx.2 := by
  simp only [logRecords, List.mem_flatMap, txRecords, List.cons_append, List.mem_cons,
    List.mem_append, List.mem_map]
  simp

section Captured

variable [InlineCodec]

section Updates

variable {dict : Dictionary}

theorem applyAll_txUpdates_append (a b : List (Nat × List WalOp)) (d : Set QuadTerms) :
    Update.applyAll (txUpdates dict (a ++ b)) d =
      Update.applyAll (txUpdates dict b) (Update.applyAll (txUpdates dict a) d) := by
  rw [txUpdates, List.map_append, Update.applyAll_append]
  rfl

theorem applyLog_logRecords {hash : Bytes → UInt64} {txs : List (Nat × List WalOp)}
    (range : ∀ record ∈ logRecords txs, record.InRange) (d : Set QuadTerms) :
    Packing.applyLog hash dict (logBytes hash (logRecords txs)) d =
      Update.applyAll (txUpdates dict txs) d := by
  obtain ⟨r, run, committed, -⟩ :=
    replayFrom_logBytes hash "<captured wal>" ReadRecords.start rfl range
  rw [Packing.applyLog, run]
  simp only
  rw [committed, ← replayLog, committed_logRecords, map_borrowed_ofTerms]

/-- An element that a sequence of batches writes does not depend on what was there. -/
theorem lastWrite_isSome {txs : List (Nat × List WalOp)} {q : QuadTerms} :
    (Update.lastWrite (txUpdates dict txs) q).isSome = true ↔
      ∃ tx ∈ txs, ∃ del given, (del, given) ∈ tx.2 ∧ given.named dict = q := by
  induction txs with
  | nil => simp [txUpdates, Update.lastWrite]
  | cons tx txs ih =>
      have write : (((opsUpdate tx.2).map (QuadTerms.named dict)).write q).isSome = true ↔
          ∃ del given, (del, given) ∈ tx.2 ∧ given.named dict = q := by
        simp only [Update.isSome_write, Update.map, List.mem_map, mem_opsUpdate_adds,
          mem_opsUpdate_dels, Bool.exists_bool]
      rw [txUpdates, List.map_cons, Update.lastWrite_cons, Option.isSome_or, Bool.or_eq_true]
      rw [txUpdates] at ih
      rw [ih, write, List.exists_mem_cons_iff]
      exact or_comm

/-- Two starts that differ in one quad end the same exactly when it is written. -/
theorem applyAll_congr_start {txs : List (Nat × List WalOp)} {d d' : Set QuadTerms} :
    Update.applyAll (txUpdates dict txs) d = Update.applyAll (txUpdates dict txs) d' ↔
      ∀ q, (q ∈ d ↔ q ∈ d') ∨
        ∃ tx ∈ txs, ∃ del given, (del, given) ∈ tx.2 ∧ given.named dict = q := by
  rw [Set.ext_iff]
  refine forall_congr' fun q => ?_
  rw [Update.mem_applyAll, Update.mem_applyAll, ← lastWrite_isSome]
  cases Update.lastWrite (txUpdates dict txs) q with
  | none => simp
  | some b => simp

end Updates

/-! ## Groups of commits -/

/-- What the planned transactions of a group log, after `pre` on a snapshot. -/
structure Logged (start : Snapshot) (pre ms : PlannedList) (new : List (Nat × List WalOp)) :
    Prop where
  frames : ms.frames = logRecords new
  epochs : new.map Prod.fst = ms.map fun m => m.2.epoch
  applied : Update.applyAll (txUpdates start.base.dict new) (pre.applyTo start.dataset) =
    PlannedList.applyTo (pre ++ ms) start.dataset
  valid : ∀ tx ∈ new, OpsValid tx.2

theorem logged_plannedOf {start : Snapshot} {pre : PlannedList} {members : List Member}
    {outs : List (PlanOutcome × Snapshot)} (spec : OutcomesSpec start pre members outs) :
    ∃ new, Logged start pre (plannedOf start.base.dict members outs) new := by
  induction members generalizing pre outs with
  | nil =>
      cases outs with
      | nil => exact ⟨[], rfl, rfl, by simp [plannedOf, txUpdates], by simp⟩
      | cons o outs => exact spec.elim
  | cons m members ih =>
      cases outs with
      | nil => exact spec.elim
      | cons o outs =>
          obtain ⟨outcome, seen⟩ := o
          obtain ⟨here, -, rest⟩ := spec
          obtain ⟨new, logged⟩ := ih rest
          cases outcome with
          | planned p =>
              obtain ⟨ops, frames, same, mem⟩ := here.logged
              have valid : OpsValid ops := opsValid_iff.mpr fun op inside =>
                txValid_iff.mp here.valid op.2 (mem op inside)
              refine ⟨(p.epoch, ops) :: new, ?_, ?_, ?_, ?_⟩
              · have tail := logged.frames
                simp only [PlannedList.frames, logRecords] at tail ⊢
                simp only [plannedOf, PlanOutcome.planList, List.singleton_append, List.flatMap_cons,
                  frames, tail]
              · simp only [plannedOf, PlanOutcome.planList, List.singleton_append, List.map_cons,
                  logged.epochs]
              · have tail := logged.applied
                rw [PlanOutcome.planList, PlannedList.applyTo_concat] at tail
                rw [txUpdates, List.map_cons, Update.applyAll_cons, same]
                rw [plannedOf, PlanOutcome.planList, ← List.append_assoc]
                exact tail
              · rintro tx mem
                rcases List.mem_cons.mp mem with rfl | later
                · exact valid
                · exact logged.valid tx later
          | unchanged =>
              refine ⟨new, logged.frames, logged.epochs, ?_, logged.valid⟩
              simpa [PlanOutcome.planList, plannedOf] using logged.applied
          | failed e =>
              refine ⟨new, logged.frames, logged.epochs, ?_, logged.valid⟩
              simpa [PlanOutcome.planList, plannedOf] using logged.applied

/-- Recording a ready list in order. -/
theorem Ready.recordAll {snap : Snapshot} {ms : PlannedList} (ready : Ready snap ms) :
    (ms.foldl (fun s m => s.record m.2) snap).Sound ∧
      (ms.foldl (fun s m => s.record m.2) snap).base = snap.base ∧
      (ms.foldl (fun s m => s.record m.2) snap).epoch = snap.epoch + ms.length ∧
      (ms.foldl (fun s m => s.record m.2) snap).dataset = ms.applyTo snap.dataset ∧
      ∀ orders, snap.delta.Covers orders →
        (ms.foldl (fun s m => s.record m.2) snap).delta.Covers orders := by
  induction ms generalizing snap with
  | nil => exact ⟨ready.sound, rfl, rfl, rfl, fun _ h => h⟩
  | cons m ms ih =>
      have epochs := ready.epochs
      simp only [List.map_cons, List.length_cons, List.range'_succ, List.cons.injEq] at epochs
      obtain ⟨next, dataset, -⟩ := ready.record
      obtain ⟨sound, base, epoch, data, covers⟩ := ih next
      refine ⟨sound, base, ?_, ?_, fun orders h => covers orders (h.record _ _)⟩
      · rw [List.foldl_cons, epoch, List.length_cons]
        simp only [Snapshot.record, epochs.1]
        omega
      · rw [List.foldl_cons, data, dataset]
        rfl

theorem recordPlanned_eq (snap : Snapshot) {start : Snapshot} {pre : PlannedList}
    {members : List Member} {outs : List (PlanOutcome × Snapshot)}
    (spec : OutcomesSpec start pre members outs) : Capture.recordPlanned snap outs =
      (plannedOf start.base.dict members outs).foldl (fun s m => s.record m.2) snap := by
  induction members generalizing snap pre outs with
  | nil =>
      cases outs with
      | nil => rfl
      | cons o outs => exact spec.elim
  | cons m members ih =>
      cases outs with
      | nil => exact spec.elim
      | cons o outs =>
          obtain ⟨outcome, seen⟩ := o
          obtain ⟨-, -, rest⟩ := spec
          cases outcome with
          | planned p => exact ih (snap.record p) rest
          | unchanged => exact ih snap rest
          | failed e => exact ih snap rest

/-- A store between two groups: every scan order is covered and every quad could be
committed again. -/
structure Capture.Sound (snap : Snapshot) : Prop extends Snapshot.Sound snap where
  covers : snap.delta.Covers snap.base.scanOrders
  valid : ∀ q ∈ snap.dataset, validateQuad q = .ok ()

/-- The check does not look at the object. -/
theorem validateQuad_named (dict : Dictionary) (q : QuadTerms) :
    validateQuad (q.named dict) = validateQuad q := rfl

/-- Applying valid batches keeps quads valid. -/
theorem valid_applyAll (dict : Dictionary) {txs : List (Nat × List WalOp)}
    (valid : ∀ tx ∈ txs, OpsValid tx.2)
    {d : Set QuadTerms} (before : ∀ q ∈ d, validateQuad q = .ok ()) :
    ∀ q ∈ Update.applyAll (txUpdates dict txs) d, validateQuad q = .ok () := by
  induction txs generalizing d with
  | nil => exact before
  | cons tx txs ih =>
      refine ih (fun t h => valid t (List.mem_cons_of_mem _ h)) ?_
      rintro q (⟨inside, -⟩ | add)
      · exact before q inside
      · obtain ⟨given, mem, rfl⟩ := List.mem_map.mp add
        rw [validateQuad_named]
        exact opsValid_iff.mp (valid tx List.mem_cons_self) _ (mem_opsUpdate_adds.mp mem)

/-- What a group of commits does to the store and its records. -/
theorem Capture.commit_spec {s : Capture} (sound : Capture.Sound s.snap) (hash : Bytes → UInt64)
    (hard : Nat) (members : List Member) : ∃ new : List (Nat × List WalOp),
      s.records hard members = logRecords new ∧ Capture.Sound (s.commit hash hard members).snap ∧
      (s.commit hash hard members).snap.base = s.snap.base ∧
      (s.commit hash hard members).captured = s.captured ++ logBytes hash (logRecords new) ∧
      (s.commit hash hard members).durable = s.durable ∧
      new.map Prod.fst = List.range' (s.snap.epoch + 1) new.length ∧
      (s.commit hash hard members).snap.epoch = s.snap.epoch + new.length ∧
      (s.commit hash hard members).snap.dataset =
        Update.applyAll (txUpdates s.snap.base.dict new) s.snap.dataset ∧
      ∀ tx ∈ new, OpsValid tx.2 := by
  obtain ⟨inv, spec⟩ := planAll_spec (groupInv_start sound.toSound hard) members
  rw [List.nil_append] at inv
  obtain ⟨new, logged⟩ := logged_plannedOf spec
  obtain ⟨recorded, base, epoch, dataset, covers⟩ := inv.ready.recordAll
  rw [← recordPlanned_eq _ spec] at recorded base epoch dataset covers
  have applied := logged.applied
  rw [List.nil_append] at applied
  change Update.applyAll (txUpdates s.snap.base.dict new) s.snap.dataset = _ at applied
  have length : new.length = (plannedOf s.snap.base.dict members
      (planAll s.snap (GroupPlan.start s.snap hard) members).2.2).length := by
    have same := congrArg List.length logged.epochs
    simpa using same
  have data : (s.commit hash hard members).snap.dataset =
      Update.applyAll (txUpdates s.snap.base.dict new) s.snap.dataset := by
    rw [applied, ← inv.dataset]
    exact dataset
  have records : s.records hard members = logRecords new := inv.frames.trans logged.frames
  refine ⟨new, records, ⟨recorded, ?_, ?_⟩, base.trans inv.ext.base, ?_, rfl, ?_, ?_, data,
    logged.valid⟩
  · have kept := covers _ (inv.ext.covers sound.covers)
    change (Capture.recordPlanned _ _).delta.Covers (Capture.recordPlanned _ _).base.scanOrders
    rw [base, inv.ext.base]
    exact kept
  · rw [data]
    exact valid_applyAll _ logged.valid sound.valid
  · change s.captured ++ logBytes hash (s.records hard members) = _
    rw [records]
  · rw [logged.epochs, inv.ready.epochs, length, inv.ext.epoch]
  · rw [length, ← inv.ext.epoch]
    exact epoch

/-! ## Packing -/

omit [InlineCodec] in
theorem nodeKind_of_accepted {b : Bytes} {allowBlank : Bool}
    (accepted : Dictionary.AcceptedNode b allowBlank) (what : String) :
    nodeKind b what allowBlank = .ok () := by
  rcases accepted with ⟨iri, read⟩ | ⟨rfl, label, read⟩
  · simp [nodeKind, read]
  · simp [nodeKind, read]

/-- A value of a fresh snapshot decodes in the base. -/
theorem Segment.decodeValue_fresh {base : Segment} {generation : Nat} {v : Col} {pos : TermPos}
    {b : Bytes} (decoded : (base.freshSnapshot generation).decodeValue v pos = some b) :
    ∃ w, base.dict.decodeBytes w pos = some b := by
  have overlay (pos : TermPos) : (base.freshSnapshot generation).delta.decode v pos = none := by
    cases pos <;> simp [Segment.freshSnapshot, Delta.decode, Delta.space, Delta.new,
      OverlaySpace.new, OverlaySpace.decode]
  cases pos with
  | subject | predicate | object =>
      simp only [Snapshot.decodeValue, overlay] at decoded
      split at decoded
      · first | exact ⟨_, decoded⟩ | cases decoded
      · first | exact ⟨_, decoded⟩ | cases decoded
  | graph =>
      simp only [Snapshot.decodeValue, overlay] at decoded
      split at decoded
      · cases decoded
      · split at decoded
        · exact ⟨_, decoded⟩
        · cases decoded

/-- The quads of a base could be committed. -/
theorem Segment.valid_dataset {base : Segment} (accepted : base.dict.Accepted) :
    ∀ q ∈ base.dataset, validateQuad q = .ok () := by
  rintro q ⟨k, -, decoded⟩
  simp only [Snapshot.decodeKey, Option.bind_eq_bind, Option.bind_eq_some_iff] at decoded
  obtain ⟨s, hs, p, hp, o, -, graph⟩ := decoded
  obtain ⟨_, rs⟩ := Segment.decodeValue_fresh hs
  obtain ⟨_, rp⟩ := Segment.decodeValue_fresh hp
  have ks := nodeKind_of_accepted (accepted.subject _ _ rs) "subject"
  have kp := nodeKind_of_accepted (accepted.predicate _ _ rp) "predicate"
  split at graph
  · cases graph
    rw [validateQuad, ks, kp]
    rfl
  · obtain ⟨g, hg, eq⟩ := Option.bind_eq_some_iff.mp graph
    cases eq
    obtain ⟨_, rg⟩ := Segment.decodeValue_fresh hg
    have kg := nodeKind_of_accepted (accepted.graph _ _ rg) "graph"
    rw [validateQuad, ks, kp]
    exact kg

theorem packOps_spec {snap : Snapshot} {rows : List QuadKey}
    (decodes : ∀ k ∈ rows, ∃ q, snap.decodeKey k = some q) :
    ∃ ops, packOps snap rows = some ops ∧
      ∀ op : WalOp, op ∈ ops ↔ op.1 = false ∧ ∃ k ∈ rows, snap.decodeKey k = some op.2 := by
  induction rows with
  | nil => exact ⟨[], rfl, by simp⟩
  | cons k rows ih =>
      obtain ⟨q, here⟩ := decodes k List.mem_cons_self
      obtain ⟨ops, rest, mem⟩ := ih fun k' h => decodes k' (List.mem_cons_of_mem _ h)
      rw [packOps] at rest
      refine ⟨(false, q) :: ops, ?_, ?_⟩
      · rw [packOps, List.mapM_cons, here, rest]
        rfl
      · rintro ⟨del, q'⟩
        rw [List.mem_cons, mem, List.exists_mem_cons_iff, here]
        constructor
        · rintro (eq | ⟨kind, found⟩)
          · cases eq
            exact ⟨rfl, Or.inl rfl⟩
          · exact ⟨kind, Or.inr found⟩
        · rintro ⟨kind, eq | found⟩
          · cases kind
            cases eq
            exact Or.inl rfl
          · exact Or.inr ⟨kind, found⟩

/-- The image of a sound store is one transaction that adds its dataset. -/
theorem Capture.Sound.packLog {snap : Snapshot} (sound : Capture.Sound snap) :
    ∃ ops, (∀ op : WalOp, op ∈ ops ↔ op.1 = false ∧ op.2 ∈ snap.dataset) ∧
      ∀ image, snap.PackLog image ↔ image = packImage snap.epoch ops := by
  have wf := sound.wf
  obtain ⟨quads, holds⟩ := wf.holds
  obtain ⟨scan, rows, run, serves, -, members⟩ :=
    wf.scan_spec holds.spo_offered (sound.covers _ holds.spo_offered) {}
  have visible (k : QuadKey) : k ∈ rows ↔ snap.containsKey k = true := by
    rw [members]
    simp [Pattern.Matches, Pattern.MatchesTriple]
  obtain ⟨batches, yields, flat⟩ :=
    QuadScan.yields_of_serves serves (by decide : 0 < QuadBatch.batchCapacity)
  have decodes : ∀ k ∈ rows, ∃ q, snap.decodeKey k = some q := by
    intro k inside
    obtain ⟨q, decoded, -⟩ := Snapshot.resolveKey_of_validKey wf.dict wf.fits sound.accepted
      (wf.validKey_of_containsKey ((visible k).mp inside))
    exact ⟨q, decoded⟩
  obtain ⟨ops, packed, mem⟩ := packOps_spec decodes
  refine ⟨ops, fun op => ?_, fun image => ⟨?_, ?_⟩⟩
  · rw [mem]
    refine and_congr_right fun _ => exists_congr fun k => ?_
    rw [visible]
  · rintro ⟨scan', batches', ops', run', yields', packed', rfl⟩
    rw [run] at run'
    cases run'
    rw [← yields.unique yields', flat, packed] at packed'
    cases packed'
    rfl
  · rintro rfl
    exact ⟨scan, batches, ops, run, yields, by rw [flat]; exact packed, rfl⟩

/-! ## Replaying what was captured -/

/-- A transaction that replays was above the epoch and valid. -/
theorem Capture.Sound.replayTx {snap snap' : Snapshot} (sound : Capture.Sound snap) {log : String}
    {tx : Nat × List WalOp} (redo : replayTx log snap tx = .ok snap') :
    snap.epoch < tx.1 ∧ OpsValid tx.2 ∧ Capture.Sound snap' ∧ snap'.base = snap.base ∧
      snap'.epoch = tx.1 ∧ snap'.dataset =
        ((opsUpdate tx.2).map (QuadTerms.named snap.base.dict)).apply snap.dataset := by
  have above : snap.epoch < tx.1 := by
    by_contra stale
    obtain ⟨e, failed⟩ := replayTx_stale log (not_lt.mp stale)
    rw [failed] at redo
    cases redo
  have later : ¬ tx.1 ≤ snap.epoch := not_le.mpr above
  cases core : commitCore snap (opsUpdate tx.2).dels (opsUpdate tx.2).adds Carry.none with
  | error e =>
      simp only [Graphy.replayTx, later, if_false, core] at redo
      cases redo
  | ok st =>
      have none_ : Carry.none.Valid snap := fun k h => absurd rfl h
      obtain ⟨valid, spec⟩ := commitCore_spec sound.wf sound.accepted none_ core
      obtain ⟨mid, redo', sound', base, -, epoch, dataset⟩ :=
        replayTx_spec sound.toSound log above valid
      rw [redo] at redo'
      cases redo'
      refine ⟨above, valid, ⟨sound', ?_, ?_⟩, base, epoch, dataset⟩
      · simp only [Graphy.replayTx, later, if_false, core] at redo
        cases redo
        rw [base]
        exact (spec.inv.ext.covers sound.covers).record _ _
      · have one := @valid_applyAll _ snap.base.dict [tx]
          (fun t mem => by rw [List.mem_singleton.mp mem]; exact valid) _ sound.valid
        rw [dataset]
        exact one

/-- A log that replays has increasing epochs and valid transactions. -/
theorem Capture.Sound.replay {snap snap' : Snapshot} (sound : Capture.Sound snap) {log : String}
    {txs : List (Nat × List WalOp)} (redo : txs.foldlM (Graphy.replayTx log) snap = .ok snap') :
    EpochsAbove snap.epoch txs ∧ (∀ tx ∈ txs, OpsValid tx.2) ∧ Capture.Sound snap' ∧
      snap'.base = snap.base ∧ snap.epoch ≤ snap'.epoch ∧ (∀ tx ∈ txs, tx.1 ≤ snap'.epoch) ∧
      snap'.dataset = Update.applyAll (txUpdates snap.base.dict txs) snap.dataset := by
  induction txs generalizing snap with
  | nil =>
      cases redo
      exact ⟨⟨by simp, .nil⟩, by simp, sound, rfl, le_rfl, by simp, rfl⟩
  | cons tx txs ih =>
      rw [List.foldlM_cons] at redo
      cases first : Graphy.replayTx log snap tx with
      | error e =>
          rw [first] at redo
          cases redo
      | ok mid =>
          rw [first] at redo
          obtain ⟨above, valid, sound1, base1, epoch1, data1⟩ := sound.replayTx first
          obtain ⟨⟨higher, sorted⟩, valids, sound2, base2, grows, bounded, data2⟩ := ih sound1 redo
          rw [epoch1] at higher grows
          refine ⟨⟨?_, List.pairwise_cons.mpr ⟨higher, sorted⟩⟩, ?_, sound2, base2.trans base1,
            le_trans (le_of_lt above) grows, ?_, ?_⟩
          · rintro t mem
            rcases List.mem_cons.mp mem with rfl | later
            · exact above
            · exact lt_trans above (higher t later)
          · rintro t mem
            rcases List.mem_cons.mp mem with rfl | later
            · exact valid
            · exact valids t later
          · rintro t mem
            rcases List.mem_cons.mp mem with rfl | later
            · exact grows
            · exact bounded t later
          · rw [data2, data1, base1]
            rfl

/-- A base without events is sound. -/
theorem Capture.sound_fresh {base : Segment} {quads : List QuadKey} (holds : base.Holds quads)
    (accepted : base.dict.Accepted) (generation : Nat) :
    Capture.Sound (base.freshSnapshot generation) where
  toSound := Snapshot.fresh_sound holds accepted generation
  covers := Delta.Covers.new _ _ _ _ _
  valid := Segment.valid_dataset accepted

/-- Restoring from the bytes of some transactions replays them all. -/
theorem enableCapture_logRecords {hash : Bytes → UInt64} {txs : List (Nat × List WalOp)}
    (fits : ∀ record ∈ logRecords txs, record.InRange) (base : Segment) (generation : Nat) :
    enableCapture hash base generation (logBytes hash (logRecords txs)) =
      (txs.foldlM (replayTx "captured WAL") (base.freshSnapshot generation)).map
        fun snap => (snap, (logBytes hash (logRecords txs)).length) := by
  have delivers := replayBytes_logBytes hash fits
  rw [committed_logRecords, valid_logRecords, List.take_length] at delivers
  rw [enableCapture, delivers, List.foldlM_map]
  simp only [List.map_map, Function.comp_def, WalBytes.WalOp.borrowed_ofTerms, List.map_id']
  cases txs.foldlM (replayTx "captured WAL") (base.freshSnapshot generation) <;> rfl

/-- When a log of valid transactions restores a dataset. -/
theorem enableCapture_iff {hash : Bytes → UInt64} {base : Segment} {quads : List QuadKey}
    (holds : base.Holds quads) (accepted : base.dict.Accepted) (generation : Nat)
    {txs : List (Nat × List WalOp)} (fits : ∀ record ∈ logRecords txs, record.InRange)
    (valid : ∀ tx ∈ txs, OpsValid tx.2) (d : Set QuadTerms) :
    (∃ snap, enableCapture hash base generation (logBytes hash (logRecords txs)) =
          .ok (snap, (logBytes hash (logRecords txs)).length) ∧
        ∀ q, snap.Contains q ↔ q ∈ d) ↔
      EpochsAbove 0 txs ∧ Update.applyAll (txUpdates base.dict txs) base.dataset = d := by
  have sound := Capture.sound_fresh holds accepted generation
  rw [enableCapture_logRecords fits]
  constructor
  · rintro ⟨snap, restored, same⟩
    cases redo : txs.foldlM (replayTx "captured WAL") (base.freshSnapshot generation) with
    | error e =>
        rw [redo] at restored
        cases restored
    | ok snap' =>
        rw [redo] at restored
        cases restored
        obtain ⟨epochs, -, -, -, -, -, dataset⟩ := sound.replay redo
        refine ⟨epochs, ?_⟩
        rw [← Snapshot.dataset_fresh base generation]
        exact dataset.symm.trans (Set.ext same)
  · rintro ⟨epochs, same⟩
    obtain ⟨snap, redo, -, -, -, -, dataset⟩ :=
      replay_spec sound.toSound "captured WAL" epochs valid
    refine ⟨snap, by rw [redo]; rfl, fun q => ?_⟩
    change q ∈ snap.dataset ↔ q ∈ d
    rw [dataset, ← same]
    rfl

/-! ## Runs -/

/-- The transactions of an image. -/
def imageTxs (epoch : Nat) (ops : List WalOp) : List (Nat × List WalOp) :=
  if ops = [] then [] else [(max epoch 1, ops)]

omit [InlineCodec] in
theorem packImage_eq (epoch : Nat) (ops : List WalOp) :
    packImage epoch ops = logRecords (imageTxs epoch ops) := by
  unfold packImage imageTxs
  split
  · rfl
  · simp [logRecords]

/-- How the transactions of the durable and the captured log make up the dataset since the
last packing. -/
def Capture.Since (hash : Bytes → UInt64) (base : Segment) (snap : Snapshot)
    (all : List (Nat × List WalOp)) : Option Packing → Prop
  | none => EpochsAbove 0 all ∧
      snap.dataset = Update.applyAll (txUpdates base.dict all) base.dataset
  | some p => ∃ ops waiting later, all = imageTxs p.epoch ops ++ waiting ++ later ∧
      (∀ op : WalOp, op ∈ ops ↔ op.1 = false ∧ op.2 ∈ p.shown) ∧
      (∀ q ∈ p.shown, q.named base.dict = q) ∧
      p.undrained = logBytes hash (logRecords waiting) ∧ p.later = logRecords later ∧
      EpochsAbove 0 waiting ∧ (∀ tx ∈ waiting, tx.1 ≤ p.epoch) ∧
      later.map Prod.fst = List.range' (p.epoch + 1) later.length ∧
      snap.epoch = p.epoch + later.length ∧
      snap.dataset = Update.applyAll (txUpdates base.dict later) p.shown

/-- What holds in every run. -/
structure Capture.Inv (hash : Bytes → UInt64) (base : Segment) (s : Capture) (p : Option Packing)
    (ds cs : List (Nat × List WalOp)) : Prop where
  sound : Capture.Sound s.snap
  onBase : s.snap.base = base
  durable : s.durable = logBytes hash (logRecords ds)
  captured : s.captured = logBytes hash (logRecords cs)
  fits : ∀ record ∈ logRecords (ds ++ cs), record.InRange
  valid : ∀ tx ∈ ds ++ cs, OpsValid tx.2
  /-- Captured transactions are commits, in the order of their epochs. -/
  epochs : EpochsAbove 0 cs
  bounded : ∀ tx ∈ cs, tx.1 ≤ s.snap.epoch
  restored : p = none → ∀ tx ∈ ds, tx.1 ≤ s.snap.epoch
  since : Capture.Since hash base s.snap (ds ++ cs) p

omit [InlineCodec] in
/-- Epochs of new commits come after those there are. -/
theorem EpochsAbove.append {txs new : List (Nat × List WalOp)} {epoch : Nat}
    (h : EpochsAbove 0 txs) (bounded : ∀ tx ∈ txs, tx.1 ≤ epoch)
    (next : new.map Prod.fst = List.range' (epoch + 1) new.length) : EpochsAbove 0 (txs ++ new) := by
  have above : ∀ tx ∈ new, epoch < tx.1 := by
    rintro tx mem
    have inside : tx.1 ∈ new.map Prod.fst := List.mem_map_of_mem mem
    rw [next, List.mem_range'_1] at inside
    omega
  have sorted : new.Pairwise fun a b => a.1 < b.1 := by
    rw [← List.pairwise_map, next]
    exact List.pairwise_lt_range'
  refine ⟨?_, List.pairwise_append.mpr ⟨h.2, sorted, ?_⟩⟩
  · rintro tx mem
    rcases List.mem_append.mp mem with old | new_
    · exact h.1 tx old
    · exact lt_of_le_of_lt (Nat.zero_le _) (above tx new_)
  · intro a old b new_
    exact lt_of_le_of_lt (bounded a old) (above b new_)

namespace Capture

variable {hash : Bytes → UInt64} {base : Segment} {s : Capture} {p : Option Packing}
  {ds cs : List (Nat × List WalOp)}

theorem Inv.commit (inv : Inv hash base s p ds cs) (hard : Nat) (members : List Member)
    (fits : ∀ record ∈ s.records hard members, record.InRange) :
    ∃ new, Inv hash base (s.commit hash hard members)
      (p.map fun p => { p with later := p.later ++ s.records hard members }) ds (cs ++ new) := by
  obtain ⟨new, records, sound, onBase, captured, durable, next, epoch, dataset, valid⟩ :=
    commit_spec inv.sound hash hard members
  rw [inv.onBase] at dataset
  have grows : s.snap.epoch ≤ (s.commit hash hard members).snap.epoch := by omega
  have newBounded : ∀ tx ∈ new, tx.1 ≤ (s.commit hash hard members).snap.epoch := by
    rintro tx mem
    have inside : tx.1 ∈ new.map Prod.fst := List.mem_map_of_mem mem
    rw [next, List.mem_range'_1] at inside
    omega
  refine ⟨new, sound, onBase.trans inv.onBase, durable.trans inv.durable, ?_, ?_, ?_,
    inv.epochs.append inv.bounded next, ?_, ?_, ?_⟩
  · rw [captured, inv.captured, logRecords_append, logBytes_append]
  · rw [← List.append_assoc, logRecords_append]
    rintro record mem
    rcases List.mem_append.mp mem with old | new_
    · exact inv.fits record old
    · exact fits record (records ▸ new_)
  · rw [← List.append_assoc]
    rintro tx mem
    rcases List.mem_append.mp mem with old | new_
    · exact inv.valid tx old
    · exact valid tx new_
  · rintro tx mem
    rcases List.mem_append.mp mem with old | new_
    · exact le_trans (inv.bounded tx old) grows
    · exact newBounded tx new_
  · intro none_ tx mem
    exact le_trans (inv.restored (Option.map_eq_none_iff.mp none_) tx mem) grows
  · rw [← List.append_assoc]
    cases p with
    | none =>
        obtain ⟨epochs, data⟩ := inv.since
        have bounded : ∀ tx ∈ ds ++ cs, tx.1 ≤ s.snap.epoch := by
          rintro tx mem
          rcases List.mem_append.mp mem with old | waiting
          · exact inv.restored rfl tx old
          · exact inv.bounded tx waiting
        refine ⟨epochs.append bounded next, ?_⟩
        rw [dataset, data, applyAll_txUpdates_append (ds ++ cs)]
    | some p =>
        obtain ⟨ops, waiting, later, all, packed, own, undrained, since, above, early, range, now,
          data⟩ := inv.since
        refine ⟨ops, waiting, later ++ new, ?_, packed, own, undrained, ?_, above, early, ?_, ?_, ?_⟩
        · rw [all, List.append_assoc _ later]
        · change p.later ++ s.records hard members = _
          rw [since, records, logRecords_append]
        · rw [List.map_append, range, next, now, List.length_append, Nat.add_right_comm,
            ← List.range'_append_1]
        · rw [epoch, now, List.length_append, Nat.add_assoc]
        · rw [dataset, data, applyAll_txUpdates_append]

theorem Inv.drain (inv : Inv hash base s p ds cs) : Inv hash base s.drain p (ds ++ cs) [] where
  sound := inv.sound
  onBase := inv.onBase
  durable := by
    change s.durable ++ s.captured = _
    rw [inv.durable, inv.captured, logRecords_append, logBytes_append]
  captured := rfl
  fits := by
    rw [List.append_nil]
    exact inv.fits
  valid := by
    rw [List.append_nil]
    exact inv.valid
  epochs := ⟨by simp, .nil⟩
  bounded := by simp
  restored := by
    rintro rfl tx mem
    rcases List.mem_append.mp mem with old | waiting
    · exact inv.restored rfl tx old
    · exact inv.bounded tx waiting
  since := by
    rw [List.append_nil]
    exact inv.since

theorem Inv.pack (inv : Inv hash base s p ds cs) {image : List WalRecord}
    (packed : s.snap.PackLog image) (fits : ∀ record ∈ image, record.InRange) :
    ∃ ds', Inv hash base { s with durable := logBytes hash image }
      (some ⟨{q | s.snap.Contains q}, s.snap.epoch, s.captured, []⟩) ds' cs := by
  obtain ⟨ops, mem, only⟩ := inv.sound.packLog
  have records : image = logRecords (imageTxs s.snap.epoch ops) := by
    rw [← packImage_eq]
    exact (only image).mp packed
  have own : ∀ q ∈ s.snap.dataset, q.named base.dict = q := by
    intro q inside
    have kept := inv.sound.toSound.named_of_mem inside
    rwa [inv.onBase] at kept
  refine ⟨imageTxs s.snap.epoch ops, inv.sound, inv.onBase, ?_, inv.captured, ?_, ?_, inv.epochs,
    inv.bounded, by simp, ops, cs, [], ?_, mem, own, inv.captured, rfl, inv.epochs, inv.bounded, rfl,
    rfl, rfl⟩
  · rw [← records]
  · rw [logRecords_append, ← records]
    rintro record inside
    rcases List.mem_append.mp inside with image_ | waiting
    · exact fits record image_
    · exact inv.fits record (by rw [logRecords_append]; exact List.mem_append_right _ waiting)
  · rintro tx inside
    rcases List.mem_append.mp inside with image_ | waiting
    · unfold imageTxs at image_
      split at image_
      · cases image_
      · rw [List.mem_singleton.mp image_]
        exact opsValid_iff.mpr fun op there => inv.sound.valid _ ((mem op).mp there).2
    · exact inv.valid tx (List.mem_append_right _ waiting)
  · rw [List.append_nil]

theorem Run.inv {quads : List QuadKey} (holds : base.Holds quads)
    (accepted : base.dict.Accepted) {generation : Nat} (run : Run hash base generation s p) :
    ∃ ds cs, Inv hash base s p ds cs := by
  induction run with
  | @opened txs snap consumed fits restored =>
      rw [enableCapture_logRecords fits] at restored
      cases redo : txs.foldlM (replayTx "captured WAL") (base.freshSnapshot generation) with
      | error e =>
          rw [redo] at restored
          cases restored
      | ok snap' =>
          rw [redo] at restored
          cases restored
          obtain ⟨epochs, valid, sound, onBase, -, bounded, dataset⟩ :=
            (sound_fresh holds accepted generation).replay redo
          refine ⟨txs, [], sound, onBase, rfl, rfl, ?_, ?_, ⟨by simp, .nil⟩, by simp,
            fun _ => bounded, ?_⟩
          · rw [List.append_nil]
            exact fits
          · rw [List.append_nil]
            exact valid
          · rw [List.append_nil]
            exact ⟨epochs, dataset⟩
  | commit hard members fits run ih =>
      obtain ⟨ds, cs, inv⟩ := ih
      obtain ⟨new, next⟩ := inv.commit hard members fits
      exact ⟨ds, cs ++ new, next⟩
  | drain run ih =>
      obtain ⟨ds, cs, inv⟩ := ih
      exact ⟨ds ++ cs, [], inv.drain⟩
  | pack packed fits run ih =>
      obtain ⟨ds, cs, inv⟩ := ih
      obtain ⟨ds', next⟩ := inv.pack packed fits
      exact ⟨ds', cs, next⟩

end Capture

omit [InlineCodec] in
theorem logRecords_eq_nil {txs : List (Nat × List WalOp)} : logRecords txs = [] ↔ txs = [] := by
  cases txs with
  | nil => simp [logRecords]
  | cons tx txs => simp [logRecords, txRecords]

omit [InlineCodec] in
theorem logBytes_eq_nil {hash : Bytes → UInt64} {records : List WalRecord} :
    logBytes hash records = [] ↔ records = [] := by
  cases records with
  | nil => simp
  | cons record records =>
      simp [logBytes, WalBytes.frame, ← List.length_eq_zero_iff, length_leBytes]

omit [InlineCodec] in
/-- Epochs of a packed log with what follows it increase when nothing waits and nothing
follows a packing at epoch 0. -/
theorem epochsAbove_image {epoch : Nat} {ops : List WalOp} (some_ : ops ≠ [])
    {waiting later : List (Nat × List WalOp)} (early : ∀ tx ∈ waiting, tx.1 ≤ epoch)
    (range : later.map Prod.fst = List.range' (epoch + 1) later.length) :
    EpochsAbove 0 (imageTxs epoch ops ++ waiting ++ later) ↔
      waiting = [] ∧ (epoch = 0 → later = []) := by
  have image : imageTxs epoch ops = [(max epoch 1, ops)] := if_neg some_
  have first : ∀ tx ∈ later, epoch + 1 ≤ tx.1 := by
    rintro tx mem
    have inside : tx.1 ∈ later.map Prod.fst := List.mem_map_of_mem mem
    rw [range, List.mem_range'_1] at inside
    exact inside.1
  rw [image, List.append_assoc, List.singleton_append]
  constructor
  · rintro ⟨-, sorted⟩
    have after := (List.pairwise_cons.mp sorted).1
    refine ⟨List.eq_nil_iff_forall_not_mem.mpr fun tx mem => ?_, ?_⟩
    · have high := after tx (List.mem_append_left _ mem)
      have low := early tx mem
      simp only [sup_lt_iff] at high
      omega
    · rintro rfl
      cases later with
      | nil => rfl
      | cons tx later =>
          have high := after tx (by simp)
          simp only [List.map_cons, List.length_cons, List.range'_succ, List.cons.injEq] at range
          simp only [sup_lt_iff] at high
          omega
  · rintro ⟨rfl, zero⟩
    have sorted : later.Pairwise fun a b => a.1 < b.1 := by
      rw [← List.pairwise_map, range]
      exact List.pairwise_lt_range'
    have high : ∀ tx ∈ later, max epoch 1 < tx.1 := by
      rintro tx mem
      have next := first tx mem
      have positive : epoch ≠ 0 := fun h => by simp [zero h] at mem
      simp only [sup_lt_iff]
      omega
    refine ⟨?_, List.pairwise_cons.mpr ⟨by simpa using high, by simpa using sorted⟩⟩
    rintro tx mem
    rcases List.mem_cons.mp mem with rfl | later_
    · simp
    · exact lt_of_lt_of_le (Nat.succ_pos _) (first tx (by simpa using later_))

/-- Applying an image adds what it holds. -/
theorem applyAll_image {dict : Dictionary} {epoch : Nat} {ops : List WalOp}
    {shown d : Set QuadTerms} (packed : ∀ op : WalOp, op ∈ ops ↔ op.1 = false ∧ op.2 ∈ shown)
    (own : ∀ q ∈ shown, q.named dict = q) :
    Update.applyAll (txUpdates dict (imageTxs epoch ops)) d = d ∪ shown := by
  have self : (opsUpdate ops).map (QuadTerms.named dict) = opsUpdate ops := by
    refine Update.map_eq_self fun q mem => own q ?_
    rcases List.mem_append.mp mem with del | add
    · exact ((packed _).mp (mem_opsUpdate_dels.mp del)).2
    · exact ((packed _).mp (mem_opsUpdate_adds.mp add)).2
  have adds : ∀ q, q ∈ (opsUpdate ops).adds ↔ q ∈ shown := fun q => by
    simp [mem_opsUpdate_adds, packed]
  have dels : ∀ q, q ∉ (opsUpdate ops).dels := fun q => by simp [mem_opsUpdate_dels, packed]
  have one : (opsUpdate ops).apply d = d ∪ shown := by
    ext q
    simp [Update.mem_apply, adds, dels]
  unfold imageTxs
  split
  · rename_i none_
    rw [← one, none_]
    simp [txUpdates, Update.apply, opsUpdate]
  · rw [txUpdates, List.map_singleton, self]
    exact one

/-- When a store restores, on the invariant. -/
theorem Capture.Inv.restores_iff {hash : Bytes → UInt64} {base : Segment} {quads : List QuadKey}
    (holds : base.Holds quads) (accepted : base.dict.Accepted) {generation : Nat} {s : Capture}
    {p : Option Packing} {ds cs : List (Nat × List WalOp)} (inv : Inv hash base s p ds cs) :
    s.Restores hash base generation ↔
      ∀ p', p = some p' → p'.Faithful hash base.dict base.dataset := by
  have log : s.drain.durable = logBytes hash (logRecords (ds ++ cs)) := inv.drain.durable
  rw [Restores, log]
  refine (enableCapture_iff holds accepted generation inv.fits inv.valid s.snap.dataset).trans ?_
  cases p with
  | none =>
      obtain ⟨epochs, data⟩ := inv.since
      simp [epochs, data]
  | some p =>
      obtain ⟨ops, waiting, later, all, packed, own, undrained, since, above, early, range, now,
        data⟩ := inv.since
      have updates : Update.applyAll (txUpdates base.dict (ds ++ cs)) base.dataset =
          Update.applyAll (txUpdates base.dict later)
            (Update.applyAll (txUpdates base.dict waiting) (base.dataset ∪ p.shown)) := by
        rw [all, applyAll_txUpdates_append, applyAll_txUpdates_append, applyAll_image packed own]
      have rewritten (q : QuadTerms) : p.Rewritten base.dict q ↔
          ∃ tx ∈ later, ∃ del given, (del, given) ∈ tx.2 ∧ given.named base.dict = q := by
        simp only [Packing.Rewritten, since, mem_logRecords]
        exact ⟨fun ⟨del, given, ⟨tx, mem, h⟩, eq⟩ => ⟨tx, mem, del, given, h, eq⟩,
          fun ⟨tx, mem, del, given, h, eq⟩ => ⟨del, given, ⟨tx, mem, h⟩, eq⟩⟩
      have fits : ∀ record ∈ logRecords waiting, record.InRange := by
        intro record mem
        refine inv.fits record ?_
        rw [all, logRecords_append, logRecords_append]
        exact List.mem_append_left _ (List.mem_append_right _ mem)
      rw [updates, data, applyAll_congr_start, all]
      simp only [Option.some.injEq, forall_eq', Packing.Faithful, rewritten, undrained, since,
        applyLog_logRecords fits, logBytes_eq_nil, logRecords_eq_nil]
      by_cases empty : p.shown = ∅
      · have none_ : ops = [] := List.eq_nil_iff_forall_not_mem.mpr fun op mem => by
          have there := ((packed op).mp mem).2
          rw [empty] at there
          exact there
        have epochs : EpochsAbove 0 (imageTxs p.epoch ops ++ waiting ++ later) := by
          rw [imageTxs, if_pos none_, List.nil_append]
          exact above.append early range
        simp only [epochs, true_and, empty, Set.union_empty, Set.mem_empty_iff_false, iff_false,
          ne_eq, not_true_eq_false, forall_true_left, false_imp_iff, and_true]
        refine forall_congr' fun q => ?_
        tauto
      · have some_ : ops ≠ [] := by
          obtain ⟨q, there⟩ := Set.nonempty_iff_ne_empty.mpr empty
          exact List.ne_nil_of_mem ((packed (false, q)).mpr ⟨rfl, there⟩)
        rw [epochsAbove_image some_ early range]
        simp only [empty, false_imp_iff, true_and, ne_eq, not_false_eq_true, forall_true_left, and_assoc]
        refine and_congr_right fun drained => and_congr_right fun _ => forall_congr' fun q => ?_
        rw [drained]
        simp only [txUpdates, List.map_nil, Update.applyAll_nil, Set.mem_union]
        tauto

/-- A store whose records all fit the format restores over its base exactly when the last
packing of its log, if there was one, stands for the store. -/
theorem Capture.Run.restoring_iff {hash : Bytes → UInt64} {base : Segment} {quads : List QuadKey}
    (holds : base.Holds quads) (accepted : base.dict.Accepted) {generation : Nat} {s : Capture}
    {p : Option Packing} (run : Run hash base generation s p) :
    s.Restores hash base generation ↔
      ∀ p', p = some p' → p'.Faithful hash base.dict base.dataset := by
  obtain ⟨ds, cs, inv⟩ := run.inv holds accepted
  exact inv.restores_iff holds accepted

end Captured

section Concrete

attribute [local instance] plainCodec

/-- A digest that tells nothing apart. -/
def noHash : Bytes → UInt64 := fun _ => 0

/-- An ephemeral store that committed one quad and drained nothing. -/
def Capture.added : Capture :=
  Capture.commit noHash ⟨Snapshot.ephemeral, [], []⟩ 10 [addLetters 1 2 3]

theorem Capture.records_added :
    Capture.records ⟨Snapshot.ephemeral, [], []⟩ 10 [addLetters 1 2 3] =
      [.begin, .quad false (.ofLetters 1 2 3), .commit 1] := by
  decide +kernel

theorem Capture.run_added : Run noHash Segment.empty 0 Capture.added none := by
  have opened : Run noHash Segment.empty 0 ⟨Snapshot.ephemeral, [], []⟩ none :=
    @Run.opened _ _ _ _ [] _ _ (by decide) (enableCapture_logRecords (by decide) _ _)
  refine .commit 10 [addLetters 1 2 3] ?_ opened
  rw [records_added]
  decide

theorem Capture.restoring_iff_added :
    Capture.added.Restores noHash Segment.empty 0 ↔
      ∀ p' : Packing, none = some p' →
        p'.Faithful noHash Segment.empty.dict Segment.empty.dataset :=
  Capture.Run.restoring_iff empty_holds empty_accepted Capture.run_added

/-- The one quad of that store. -/
theorem Capture.mem_added {q : QuadTerms} (h : q ∈ Capture.added.snap.dataset) :
    q = .ofLetters 1 2 3 := by
  obtain ⟨new, records, -, -, -, -, -, -, dataset, -⟩ :=
    commit_spec (s := ⟨Snapshot.ephemeral, [], []⟩) (sound_fresh empty_holds empty_accepted 0)
      noHash 10 [addLetters 1 2 3]
  change Capture.added.snap.dataset = _ at dataset
  rw [dataset, show Snapshot.dataset _ = ∅ from ephemeral_dataset, Update.mem_applyAll] at h
  have written : (Update.lastWrite (txUpdates Snapshot.ephemeral.base.dict new) q).isSome = true := by
    cases last : Update.lastWrite (txUpdates Snapshot.ephemeral.base.dict new) q with
    | some b => rfl
    | none =>
        rw [last] at h
        exact h.elim
  obtain ⟨tx, mem, del, given, inside, rfl⟩ := lastWrite_isSome.mp written
  have logged : WalRecord.quad del given ∈ logRecords new := mem_logRecords.mpr ⟨tx, mem, inside⟩
  rw [← records, records_added] at logged
  simp only [List.mem_cons, reduceCtorEq, WalRecord.quad.injEq, List.not_mem_nil, or_false,
    false_or] at logged
  rw [logged.2]
  decide +kernel

/-- The log is packed before the commit is drained: the drained frames then carry the epoch
of the image and the restore fails. -/
theorem Capture.not_restores_packed : ∃ s p, Run noHash Segment.empty 0 s p ∧
    s.snap.base = Segment.empty ∧ ¬ s.Restores noHash Segment.empty 0 := by
  obtain ⟨ds, cs, inv⟩ := Capture.run_added.inv empty_holds empty_accepted
  obtain ⟨ops, mem, only⟩ := inv.sound.packLog
  have packed : Capture.added.snap.PackLog (packImage Capture.added.snap.epoch ops) :=
    (only _).mpr rfl
  have epoch : Capture.added.snap.epoch = 1 := by decide +kernel
  have fits : ∀ record ∈ packImage Capture.added.snap.epoch ops, record.InRange := by
    intro record inside
    rw [packImage, epoch] at inside
    split at inside
    · cases inside
    · simp only [txRecords, List.cons_append, List.mem_cons, List.mem_append, List.mem_map,
        List.not_mem_nil, or_false] at inside
      rcases inside with rfl | ⟨op, there, rfl⟩ | rfl
      · decide
      · obtain ⟨del, shown⟩ := (mem op).mp there
        rw [del, Capture.mem_added shown]
        decide
      · decide
  obtain ⟨ds', after⟩ := inv.pack packed fits
  refine ⟨_, _, .pack packed fits Capture.run_added, after.onBase, fun restores => ?_⟩
  obtain ⟨-, shown⟩ := (after.restores_iff empty_holds empty_accepted).mp restores _ rfl
  have some_ : {q | Capture.added.snap.Contains q} ≠ ∅ := by
    refine Set.nonempty_iff_ne_empty.mp ⟨.ofLetters 1 2 3, ?_⟩
    exact ⟨⟨Col.dict 0, Col.dict 0, Col.dict 0, Col.dict 0⟩, by decide +kernel, by decide +kernel⟩
  have waiting : Capture.added.captured ≠ [] := by decide +kernel
  exact waiting (shown some_).1

end Concrete

end Graphy
