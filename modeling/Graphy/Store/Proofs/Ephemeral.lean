import Graphy.Store.Proofs.Alike
import Graphy.Store.Proofs.Compaction

/-!
# Compaction is invisible

A store without a directory stays sound, unified and counted through commits, collections
and compactions; then its compaction shows what the tip showed, now and after the same
commits, unless the relieved event budget lets through a commit that was refused before.
-/

namespace Graphy

section Runs

variable [InlineCodec]

namespace Snapshot

/-- What holds of every snapshot of a store without a directory. -/
structure Live (snap : Snapshot) : Prop where
  sound : snap.Sound
  unified : snap.Unified
  counted : snap.delta.Counted

theorem live_fresh {base : Segment} {quads : List QuadKey} (holds : base.Holds quads)
    (accepted : base.dict.Accepted) (generation : Nat) : (base.freshSnapshot generation).Live where
  sound := fresh_sound holds accepted generation
  unified := unified_fresh holds.dict accepted generation
  counted := Delta.counted_new _ _ _ _ _

/-! ## Planning -/

theorem Live.internKey {snap : Snapshot} (live : snap.Live) (q : QuadTerms) :
    (snap.internKey q).1.Live := by
  obtain ⟨ext, fits, -⟩ := internKey_spec live.sound.wf.fits q
  exact ⟨live.sound.extends ext (live.sound.wf.extends ext fits),
    live.unified.internKey live.sound.wf.dict live.sound.wf.fits q,
    ext.delta.counted live.counted⟩

/-- Planning a transaction interns its adds. -/
theorem Live.commitCore {snap : Snapshot} (live : snap.Live) {dels adds : List QuadTerms}
    {carry : Carry} {st : PlanState} (core : commitCore snap dels adds carry = .ok st) :
    st.snap.Live := by
  have deletes (l : List (QuadTerms × Nat)) (st : PlanState) (before : st.snap.Live) :
      (l.foldl PlanState.planDel st).snap.Live := by
    induction l generalizing st with
    | nil => exact before
    | cons del l ih =>
        refine ih _ ?_
        simp only [PlanState.planDel]
        split
        · exact before
        · split
          · exact before
          · exact before
  have inserts (l : List (QuadTerms × Nat)) (st : PlanState) (before : st.snap.Live) :
      (l.foldl PlanState.planAdd st).snap.Live := by
    induction l generalizing st with
    | nil => exact before
    | cons add l ih =>
        refine ih _ ?_
        have after := before.internKey add.1
        simp only [PlanState.planAdd]
        split
        · exact after
        · exact after
  simp only [Graphy.commitCore] at core
  cases check : (dels ++ adds).forM validateQuad with
  | error e =>
      rw [check] at core
      cases core
  | ok u =>
      rw [check] at core
      cases core
      exact inserts _ _ (deletes _ _ live)

theorem Live.planOne {snap : Snapshot} (live : snap.Live) (merger : Bool) (plan : GroupPlan)
    (tx : Tx) : (planOne merger snap plan tx).1.Live := by
  simp only [Graphy.planOne]
  split
  · exact live
  · cases core : Graphy.commitCore snap tx.dels tx.adds plan.carry with
    | error e => exact live
    | ok st =>
        have after := live.commitCore core
        simp only
        split
        · exact after
        · exact after

theorem Live.planAll {snap : Snapshot} (live : snap.Live) (plan : GroupPlan)
    (members : List Member) : (planAll snap plan members).1.Live := by
  induction members generalizing snap plan with
  | nil => exact live
  | cons m rest ih => exact ih (live.planOne m.merger plan m.tx) _

/-! ## Recording -/

omit [InlineCodec] in
/-- Recording keeps the base and the overlay spaces. -/
theorem recordPlanned_frame (outs : List (PlanOutcome × Snapshot)) (snap : Snapshot) :
    (Capture.recordPlanned snap outs).base = snap.base ∧
      (∀ pos, (Capture.recordPlanned snap outs).delta.space pos = snap.delta.space pos) ∧
      (snap.delta.indexes ≠ [] → snap.delta.Counted →
        (Capture.recordPlanned snap outs).delta.Counted) := by
  induction outs generalizing snap with
  | nil => exact ⟨rfl, fun _ => rfl, fun _ counted => counted⟩
  | cons o outs ih =>
      obtain ⟨outcome, seen⟩ := o
      cases outcome with
      | planned tx =>
          obtain ⟨base, space, counted⟩ := ih (snap.record tx)
          refine ⟨base, fun pos => (space pos).trans (Delta.space_record _ _ _ pos), ?_⟩
          intro some_ before
          exact counted (by simpa [Snapshot.record, Delta.record] using some_)
            (before.record some_ _ _)
      | unchanged => exact ih snap
      | failed e => exact ih snap

theorem Live.commitGroup {snap : Snapshot} (live : snap.Live) (hard : Nat)
    (members : List Member) : (snap.commitGroup hard members).Live := by
  have last := live.planAll (GroupPlan.start snap hard) members
  obtain ⟨base, space, counted⟩ := recordPlanned_frame
    (Graphy.planAll snap (GroupPlan.start snap hard) members).2.2
    (Graphy.planAll snap (GroupPlan.start snap hard) members).1
  exact ⟨(commitGroup_spec live.sound hard members).1, last.unified.of_spaces base space,
    counted last.sound.wf.coherent.nonempty last.counted⟩

/-! ## Replay, collection and compaction -/

theorem Live.replayTx {snap snap' : Snapshot} (live : snap.Live) {log : String}
    {tx : Nat × List WalOp} (redo : replayTx log snap tx = .ok snap') : snap'.Live := by
  by_cases stale : tx.1 ≤ snap.epoch
  · simp [Graphy.replayTx, stale] at redo
  · cases core : Graphy.commitCore snap (opsUpdate tx.2).dels (opsUpdate tx.2).adds Carry.none with
    | error e =>
        simp only [Graphy.replayTx, stale, if_false, core] at redo
        cases redo
    | ok st =>
        simp only [Graphy.replayTx, stale, if_false, core] at redo
        cases redo
        have after := live.commitCore core
        obtain ⟨-, -, sound, -⟩ := recordAlone_spec live.sound core (not_le.mp stale) []
        exact ⟨sound, after.unified.of_spaces rfl fun pos => Delta.space_record _ _ _ pos,
          after.counted.record after.sound.wf.coherent.nonempty _ _⟩

theorem Live.replay {snap snap' : Snapshot} (live : snap.Live) {log : String}
    {txs : List (Nat × List WalOp)} (redo : txs.foldlM (Graphy.replayTx log) snap = .ok snap') :
    snap'.Live := by
  induction txs generalizing snap with
  | nil =>
      cases redo
      exact live
  | cons tx txs ih =>
      rw [List.foldlM_cons] at redo
      cases first : Graphy.replayTx log snap tx with
      | error e =>
          rw [first] at redo
          cases redo
      | ok mid =>
          rw [first] at redo
          exact ih (live.replayTx first) redo

/-- A captured log leaves a live store over a base, whatever its bytes are. -/
theorem live_of_enableCapture {hash : Bytes → UInt64} {base : Segment} {quads : List QuadKey}
    (holds : base.Holds quads) (accepted : base.dict.Accepted) {generation : Nat} {log : Bytes}
    {snap : Snapshot} {consumed : Nat}
    (redone : enableCapture hash base generation log = .ok (snap, consumed)) : snap.Live := by
  simp only [enableCapture, WalBytes.replayBytes] at redone
  cases ran : WalBytes.replayFrom hash "<captured wal>" .start log with
  | error e =>
      rw [ran] at redone
      cases redone
  | ok r =>
      rw [ran] at redone
      simp only [bind, Except.bind] at redone
      cases redo : (r.committed.map fun tx => (tx.1, tx.2.map WalBytes.WalOp.borrowed)).foldlM
          (Graphy.replayTx "captured WAL") (base.freshSnapshot generation) with
      | error e =>
          rw [List.foldlM_map] at redo
          rw [redo] at redone
          cases redone
      | ok final =>
          have live := (live_fresh holds accepted generation).replay redo
          rw [List.foldlM_map] at redo
          rw [redo] at redone
          cases redone
          exact live

theorem Live.gc {snap : Snapshot} (live : snap.Live) (floor : Nat) (inBase : QuadKey → Bool) :
    Live { snap with delta := snap.delta.gc floor inBase } where
  sound := ⟨live.sound.toSettled.gc floor inBase, live.sound.accepted⟩
  unified := live.unified.of_spaces rfl fun pos => by cases pos <;> rfl
  counted := Delta.counted_gc _ _ _

/-- The compaction of a live tip is live and cannot be told from it. -/
theorem Live.fold {tip : Snapshot} (live : tip.Live) :
    ∃ snap, tip.foldEphemeralDelta = some snap ∧ snap.Live ∧ Invisible tip snap := by
  obtain ⟨snap, st, run, folded⟩ := EphemeralFold.exists_folded live.sound
  have sound := folded.sound_snap live.sound
  refine ⟨snap, run, ⟨sound, folded.unified, folded.counted live.sound⟩, ?_⟩
  have alike : Alike tip snap := ⟨live.sound, sound, folded.base,
    Set.ext (folded.contains live.sound), folded.events_le live.sound live.counted⟩
  refine ⟨folded.base, ?_, ?_, folded.contains live.sound, folded.unified,
    fun k k' => folded.oneId live.sound, folded.single live.sound, ?_⟩
  · rw [folded.eq]
    rfl
  · rw [folded.eq]
    rfl
  · intro coming same
    obtain ⟨back, dataset⟩ := alike.rounds same
    exact ⟨back, fun q => Set.ext_iff.mp dataset q⟩

end Snapshot

namespace EphemeralStore

/-- The stores without a directory over any base image: opened with a captured log, then
commits, collections and compactions in any order. -/
inductive Reached (hash : Bytes → UInt64) : EphemeralStore → Prop where
  | opened {cfg : BuilderConfig} {dict : Dictionary} {source : List QuadKey} {base : Segment}
      {generation : Nat} {log : Bytes} {snap : Snapshot} {consumed : Nat} (budgetSoft : Nat)
      (wf : dict.WF) (accepted : dict.Accepted) (valid : ∀ q ∈ source, dict.ValidKey q)
      (spo : Order.spo ∈ cfg.orderings.getD cfg.profile.orderings)
      (built : buildFromIds cfg dict source = .ok base)
      (redone : enableCapture hash base generation log = .ok (snap, consumed)) :
      Reached hash (EphemeralStore.opened snap budgetSoft)
  | commit {s : EphemeralStore} (hard : Nat) (members : List Member) (reached : Reached hash s) :
      Reached hash (s.commit hard members)
  | collected {s : EphemeralStore} (floor : Nat) (reached : Reached hash s) :
      Reached hash { s with
        snap := { s.snap with delta := s.snap.delta.gc floor s.snap.base.containsQuad } }
  | compacted {s s' : EphemeralStore} {merging : Bool}
      (folded : s.compactEphemeral merging = .ok (some s')) (reached : Reached hash s) :
      Reached hash s'

/-- A compaction that runs folds the delta. -/
theorem fold_of_compactEphemeral {s s' : EphemeralStore} {merging : Bool}
    (h : s.compactEphemeral merging = .ok (some s')) :
    s.snap.foldEphemeralDelta = some s'.snap ∧ s'.dir = s.dir ∧ s'.poisoned = s.poisoned := by
  simp only [compactEphemeral] at h
  split at h
  · cases h
  · split at h
    · cases h
    · split at h
      · cases h
      · obtain ⟨snap, run, rfl⟩ := Option.map_eq_some_iff.mp (Except.ok.inj h)
        exact ⟨run, rfl, rfl⟩

theorem Reached.live {hash : Bytes → UInt64} {s : EphemeralStore} (reached : Reached hash s) :
    s.snap.Live ∧ s.dir = "" ∧ s.poisoned = false := by
  induction reached with
  | opened budgetSoft wf accepted valid spo built redone =>
      obtain ⟨seg, built', holds, dict, -⟩ := buildFromIds_holds _ wf valid spo
      rw [built] at built'
      cases built'
      exact ⟨Snapshot.live_of_enableCapture holds (dict ▸ accepted) redone, rfl, rfl⟩
  | commit hard members reached ih => exact ⟨ih.1.commitGroup hard members, ih.2⟩
  | collected floor reached ih => exact ⟨ih.1.gc floor _, ih.2⟩
  | compacted folded reached ih =>
      obtain ⟨run, dir, poisoned⟩ := fold_of_compactEphemeral folded
      obtain ⟨snap, run', live, -⟩ := ih.1.fold
      rw [run] at run'
      cases run'
      exact ⟨live, dir.trans ih.2.1, poisoned.trans ih.2.2⟩

/-- A compaction of a reachable store runs unless another one does, and nobody can tell
its snapshot from the tip but by the event budget it relieves. -/
theorem compaction_invisible {hash : Bytes → UInt64} {s : EphemeralStore}
    (reached : Reached hash s) :
    ∃ s', s.compactEphemeral false = .ok (some s') ∧ Snapshot.Invisible s.snap s'.snap := by
  obtain ⟨live, dir, poisoned⟩ := reached.live
  obtain ⟨snap, run, -, invisible⟩ := live.fold
  refine ⟨{ s with
    snap := snap
    compactFloor := snap.delta.events
    mergeNeeded := decide (s.budgetSoft < snap.delta.events) }, ?_, invisible⟩
  simp only [compactEphemeral, dir, poisoned, run]
  rfl

end EphemeralStore

end Runs

section Concrete

attribute [local instance] plainCodec

/-- A round of one commit. -/
def Snapshot.Round.single (hard : Nat) (dels adds : List QuadTerms) : Snapshot.Round :=
  ⟨hard, [⟨⟨dels, adds, .relaxed⟩, false⟩]⟩

namespace EphemeralStore

def round (s : EphemeralStore) (r : Snapshot.Round) : EphemeralStore := s.commit r.hard r.members

/-- A store on the empty base after one add. -/
def oneAdd : EphemeralStore :=
  (EphemeralStore.opened Snapshot.ephemeral 10).round (.single 10 [] [.ofLetters 1 2 3])

/-- The same store once the quad is deleted: no quads and two events. -/
def undone : EphemeralStore := oneAdd.round (.single 10 [.ofLetters 1 2 3] [])

theorem oneAdd_reached : oneAdd.Reached noHash := by
  have redone : enableCapture noHash Segment.empty 0 [] = .ok (Snapshot.ephemeral, 0) :=
    @enableCapture_logRecords _ noHash [] (by simp [logRecords]) Segment.empty 0
  have wf : Segment.empty.dict.WF := by
    constructor <;> simp [Segment.empty]
  exact .commit _ _ (.opened 10 wf empty_accepted (by simp) (by decide) empty_built redone)

theorem compaction_invisible_oneAdd : ∃ s', oneAdd.compactEphemeral false = .ok (some s') ∧
    Snapshot.Invisible oneAdd.snap s'.snap :=
  compaction_invisible oneAdd_reached

/-- What its compaction makes of it: no quads and no events. -/
def relieved : EphemeralStore :=
  match undone.compactEphemeral false with
  | .ok (some s) => s
  | _ => undone

/-- A commit of one more quad under a hard limit of two events. -/
def lastRound : Snapshot.Round := .single 2 [] [.ofLetters 4 5 6]

/-- At the hard limit the store takes no further commit; once it is compacted, it takes the
same commit. -/
theorem not_compaction_invisible_full : undone.Reached noHash ∧
    undone.compactEphemeral false = .ok (some relieved) ∧
      (relieved.snap.rounds [lastRound]).Contains (.ofLetters 4 5 6) ∧
      ¬ (undone.snap.rounds [lastRound]).Contains (.ofLetters 4 5 6) := by
  have reached : undone.Reached noHash := .commit _ _ oneAdd_reached
  refine ⟨reached, ?_, ?_, ?_⟩
  · obtain ⟨s', compacted, -⟩ := compaction_invisible reached
    simp only [relieved, compacted]
  · exact ⟨⟨.dict 0, .dict 0, .dict 0, .dict 0⟩, by decide +kernel, by decide +kernel⟩
  · intro there
    have sound : (undone.snap.rounds [lastRound]).Sound :=
      (reached.live.1.commitGroup lastRound.hard lastRound.members).sound
    have stored := sound.named_of_mem there
    rw [← stored] at there
    obtain ⟨k, resolved, -⟩ := (sound.wf.contains_iff sound.accepted).mp there
    have missing : (undone.snap.rounds [lastRound]).resolveKey (.ofLetters 4 5 6) = none := by
      decide +kernel
    rw [missing] at resolved
    cases resolved

end EphemeralStore

end Concrete

end Graphy
