import Graphy.Store.Proofs.MergeScan
import Graphy.Store.Proofs.Visibility

/-!
# Acknowledged frames and the log

A merge whose activation fails after the rename leaves the append handle on the
unlinked log.  As long as no planned transaction is written through such a handle,
every transaction answered with an epoch of its own has its frames in the log that
the next open replays, then and until another merge puts a log of its own in place.
-/

namespace Graphy

namespace Sys

section Runs

variable [InlineCodec] {txs : Nat → Tx}

/-- Whether the action writes planned transactions through a handle left on an
unlinked log. -/
def writesUnlinked (s : Sys) : Action → Bool
  | .write p (.ok _) =>
      match s.pcs p with
      | .planning run => !run.planned.isEmpty && !s.live
      | _ => false
  | _ => false

/-- A step that writes no planned transaction through such a handle. -/
def LinkedStep (txs : Nat → Tx) (s s' : Sys) : Prop :=
  ∃ a, s.next txs a = some s' ∧ s.writesUnlinked a = false

/-- Whether the action puts a merge's own log in the place of the live one. -/
def replacesLog : Action → Bool
  | .swap .published => true
  | .swap (.activationFailed at_) => at_.renamed
  | _ => false

/-- A step that leaves the log in its place. -/
def KeepingStep (txs : Nat → Tx) (s s' : Sys) : Prop :=
  ∃ a, s.next txs a = some s' ∧ replacesLog a = false

/-- The party is about to answer `m` with its own epoch. -/
def Acknowledges (s : Sys) (p : Party) (m : GroupTx) : Prop :=
  ∃ run u n, s.pcs p = .answering run (.ok u) n ∧ run.planned[n]? = some m

/-- The frames of every group being answered are in the log. -/
def FramesLogged (s : Sys) : Prop :=
  ∀ p run u n, s.pcs p = .answering run (.ok u) n → ∀ m ∈ run.planned, m.tx.frames <:+: s.log

omit [InlineCodec] in
theorem append_log (s : Sys) (frames : List WalRecord) : s.log <+: (s.append frames).log := by
  simp only [append]
  split
  · exact List.prefix_append _ _
  · exact List.prefix_refl _

omit [InlineCodec] in
theorem answerNext_log (s : Sys) (p : Party) (run : GroupRun) (written : Except String Unit)
    (next : Nat) (m : GroupTx) : (s.answerNext p run written next m).log = s.log := by
  cases written with
  | error message => exact (deliver_frame _ _ _ _).2.2.2.2.2.2.2.2.1
  | ok u =>
      exact (deliver_frame (s.setDelta run.start.arc ((s.deref run.start).record m.tx).delta) run
        m.call (.ok { run.start with epoch := m.tx.epoch })).2.2.2.2.2.2.2.2.1

theorem planNext_log (s : Sys) (p : Party) (run : GroupRun) (c : Nat) (rest : List Nat) :
    (s.planNext txs p run c rest).log = s.log := by
  simp only [planNext]
  split
  · rfl
  · exact (deliver_frame _ _ _ _).2.2.2.2.2.2.2.2.1
  · exact (deliver_frame _ _ _ _).2.2.2.2.2.2.2.2.1

/-- Unless a merge puts its own log in place, the log only grows. -/
theorem log_prefix_of_move {s s' : Sys} {a : Action} (move : Move txs s a s')
    (keeps : replacesLog a = false) : s.log <+: s'.log := by
  cases move with
  | @plan p run c rest pc todo =>
      rw [planNext_log]
  | @write p run pc todo => exact append_log s run.plan.frames
  | @answer p run written n m pc get =>
      rw [answerNext_log]
  | @publish p run written pc =>
      simp only [publishGroup]
      split <;> exact List.prefix_refl _
  | @mergeLog freeze pc => exact append_log s [.mergeStart freeze.epoch]
  | @swap job remap outcome pc carried =>
      cases outcome with
      | aborted => exact List.prefix_refl _
      | activationFailed at_ =>
          have stays : at_.renamed = false := keeps
          simp only [swapped, stays, Bool.false_eq_true, if_false]
          exact List.prefix_refl _
      | published => cases keeps
  | enter | pass | enqueue | elect | wake | collect | start | writeFailed | release | releaseMerge
  | take | mergeFail | await | acquire | seize | configure | enterPoisoned | refuse | mergeStart
  | mergeNotLogged | mergeWork => exact List.prefix_refl _

omit [InlineCodec] in
/-- A step that keeps the log and answers no new group. -/
theorem FramesLogged.frame {s s' : Sys} (ok : s.FramesLogged) {p : Party} {x : Pc}
    (pcs : s'.pcs = Function.update s.pcs p x) (log : s.log <+: s'.log)
    (same : ∀ run u n, x = .answering run (.ok u) n →
      ∃ run' n', s.pcs p = .answering run' (.ok u) n' ∧ run.planned = run'.planned) :
    s'.FramesLogged := by
  intro q run u n at_ m hm
  rw [pcs] at at_
  by_cases eq : q = p
  · rw [eq, Function.update_self] at at_
    obtain ⟨run', n', old, planned⟩ := same run u n at_
    exact (ok p run' u n' old m (planned ▸ hm)).trans log.isInfix
  · rw [Function.update_of_ne eq] at at_
    exact (ok q run u n at_ m hm).trans log.isInfix

omit [InlineCodec] in
/-- A step of a leader outside a group: nobody is answering one. -/
theorem framesLogged_of_alone {s s' : Sys} (ctl : s.Control) {p : Party} {x : Pc}
    (leads : (s.pcs p).leads = true) (pcs : s'.pcs = Function.update s.pcs p x)
    (outside : x.inGroup = false) : s'.FramesLogged := by
  intro q run u n at_
  rw [pcs] at at_
  by_cases eq : q = p
  · rw [eq, Function.update_self] at at_
    rw [at_] at outside
    cases outside
  · rw [Function.update_of_ne eq] at at_
    have := ctl.alone leads eq
    rw [at_] at this
    cases this

omit [InlineCodec] in
/-- Writing a planned group through a live handle puts its frames into the log. -/
theorem framesLogged_write {s : Sys} (epochs : s.EpochsOk) (ok : s.FramesLogged) {p : Party}
    {run : GroupRun} (pc : s.pcs p = .planning run) (linked : run.planned ≠ [] → s.live = true) :
    ((s.append run.plan.frames).setPc p (.answering run (.ok ()) 0)).FramesLogged := by
  have inv := epochs.runs p
  rw [pc] at inv
  have frames := inv.2.2
  intro q run' u n at_ m hm
  simp only [setPc, (append_frame s run.plan.frames).2] at at_
  by_cases eq : q = p
  · rw [eq, Function.update_self] at at_
    cases at_
    have live := linked (List.ne_nil_of_mem hm)
    simp only [setPc, append, live, if_true, frames]
    obtain ⟨before, after, split⟩ := List.append_of_mem hm
    rw [split, List.flatMap_append, List.flatMap_cons]
    exact ⟨s.log ++ before.flatMap fun m => m.tx.frames, after.flatMap fun m => m.tx.frames,
      by simp⟩
  · rw [Function.update_of_ne eq] at at_
    exact (ok q run' u n at_ m hm).trans (append_log s run.plan.frames).isInfix

theorem framesLogged_move {s s' : Sys} {a : Action} (inv : s.Ok) (ok : s.FramesLogged)
    (linked : s.writesUnlinked a = false) (move : Move txs s a s') : s'.FramesLogged := by
  cases move with
  | enter | pass | enqueue | elect | wake | collect | start | writeFailed | release | releaseMerge
  | take | mergeFail | await | acquire | seize | enterPoisoned | refuse | mergeStart
  | mergeNotLogged | mergeWork =>
      exact ok.frame rfl (List.prefix_refl _) (by simp)
  | @plan p run c rest pc todo =>
      obtain ⟨-, run', pcs, -⟩ := planNext_frame txs s p run c rest
      exact ok.frame pcs (by rw [planNext_log]) (by simp)
  | @write p run pc todo =>
      refine framesLogged_write inv.epochs ok pc fun some_ => ?_
      have empty : run.planned.isEmpty = false := by simpa using some_
      simpa [writesUnlinked, pc, empty] using linked
  | @answer p run written n m pc get =>
      obtain ⟨-, run', pcs, -, -, planned⟩ := answerNext_frame s p run written n m
      refine ok.frame pcs (by rw [answerNext_log]) ?_
      rintro run'' u n' eq
      cases eq
      exact ⟨run, n, pc, planned⟩
  | @publish p run written pc =>
      have leads : (s.pcs p).leads = true := by rw [pc]; rfl
      exact framesLogged_of_alone inv.control leads (publishGroup_frame s p run written).2 rfl
  | @mergeLog freeze pc =>
      exact ok.frame (congrArg (fun f => Function.update f _ _)
        (append_frame s [.mergeStart freeze.epoch]).2) (append_log s _) (by simp)
  | configure => exact ok
  | @swap job remap outcome pc carried =>
      have leads : (s.pcs .merge).leads = true := by rw [pc]; rfl
      exact framesLogged_of_alone inv.control leads (swapped_frame s job remap outcome).2 rfl

/-- In a run that writes no planned transaction through a handle left on an unlinked
log, a transaction is answered with its own epoch only when its frames are in the log
that the next open replays; they stay there until a merge puts its own log in place. -/
theorem acknowledged_logged {snap : Snapshot} {hard : Nat} {merger : Bool} {log : List WalRecord}
    {s : Sys} (run : Relation.ReflTransGen (LinkedStep txs) (init snap hard merger log) s)
    {p : Party} {m : GroupTx} (acks : s.Acknowledges p m) :
    m.tx.frames <:+: s.log ∧
      ∀ s', Relation.ReflTransGen (KeepingStep txs) s s' → m.tx.frames <:+: s'.log := by
  have all : s.Ok ∧ s.FramesLogged := by
    clear acks
    induction run with
    | refl => exact ⟨ok_init snap hard merger log, by intro p run u n at_; cases at_⟩
    | tail _ step ih =>
        obtain ⟨inv, logged⟩ := ih
        obtain ⟨a, h, linked⟩ := step
        exact ⟨inv.step ⟨a, h⟩, framesLogged_move inv logged linked (next_move h)⟩
  obtain ⟨run, u, n, at_, get⟩ := acks
  have now := all.2 p run u n at_ m (List.mem_of_getElem? get)
  refine ⟨now, fun s' later => ?_⟩
  induction later with
  | refl => exact now
  | tail _ step ih =>
      obtain ⟨a, h, keeps⟩ := step
      exact ih.trans (log_prefix_of_move (next_move h) keeps).isInfix

end Runs

section Concrete

attribute [local instance] plainCodec

/-- Call 0 has passed the gates, and a merge has logged its start. -/
def mergeLogged : List Action := [.enter 0, .pass 0, .mergeStart, .mergeLog (.ok ())]

/-- The merge builds the next base. -/
def mergeWorks (fuel : Nat) : List Action :=
  [.mergeWork (.prepass fuel), .mergeWork .mergeDictionaries,
    .mergeWork (.build fuel ⟨.balanced, none⟩)]

/-- The merge takes leadership while call 0, past the poison check, is about to enqueue;
activation then fails. -/
def activationFails (at_ : Activation) : List Action :=
  [.acquire, .request 0, .swap (.activationFailed at_), .drain .merge]

/-- The failing merge runs the queued group up to its first answer. -/
def drainsGroup : List Action := [.start .merge, .plan .merge, .write .merge (.ok ())]

/-- The base a merge of no quads builds. -/
def emptyBase : Segment :=
  ((buildFromIds ⟨.balanced, none⟩ Segment.empty.dict []).toOption).getD Segment.empty

/-- The merge of the store of the runs below, once the next base is built. -/
def emptyJob : MergeJob where
  freeze := ephemeralSys.current
  newBase := emptyBase
  generation := 1
  remap := SuffixRemap.new emptyBase 1 0

/-- The store once the start of the merge is logged. -/
def startedSys : Sys := (Sys.run twoAdds mergeLogged ephemeralSys).getD ephemeralSys

def builtSys : Sys := startedSys.setPc .merge (.merging (.built emptyJob))

theorem ephemeral_covers : (Snapshot.ephemeral.delta.index .spo).isSome = true := by decide

theorem ephemeral_rows : ∃ fuel scan, Snapshot.ephemeral.scan {} .spo = .ok scan ∧
    scan.rows fuel = .ok (some []) := by
  have wf := ephemeral_sound.wf
  obtain ⟨fuel, scan, found, run, rows⟩ := wf.rows_exist ephemeral_covers
  have bare : found = [] := by
    refine List.eq_nil_iff_forall_not_mem.mpr fun q mem => ?_
    have shown := (wf.mem_rows ephemeral_covers run rows q).mp mem
    have inside := empty_holds.containsQuad_iff.mp (show Segment.empty.containsQuad q = true from shown)
    cases inside
  exact ⟨fuel, scan, run, bare ▸ rows⟩

theorem setPc_setPc (s : Sys) (p : Party) (x y : Pc) : (s.setPc p x).setPc p y = s.setPc p y := by
  simp only [setPc, Function.update_idem]

/-- A piece of the merge's work, on a state the merge is at `stage` of. -/
theorem next_mergeWork {txs : Nat → Tx} {s : Sys} {work : MergeWork} {stage stage' : MergeStage}
    (done : s.mergeStep work stage = some stage') :
    (s.setPc .merge (.merging stage)).next txs (.mergeWork work) =
      some (s.setPc .merge (.merging stage')) := by
  have same : (s.setPc .merge (.merging stage)).mergeStep work stage = some stage' := done
  have pc : (s.setPc .merge (.merging stage)).pcs .merge = .merging stage := by
    simp only [setPc, Function.update_self]
  simp only [next, pc, same, Option.map_some, setPc_setPc]

theorem run_mergeWorks : ∃ fuel,
    Sys.run twoAdds (mergeLogged ++ mergeWorks fuel) ephemeralSys = some builtSys := by
  obtain ⟨fuel, scan, run, rows⟩ := ephemeral_rows
  have frozen : startedSys.deref ephemeralSys.current = Snapshot.ephemeral := rfl
  have run_started : Sys.run twoAdds mergeLogged ephemeralSys = some startedSys := by
    simp only [startedSys]
    rfl
  have logged : startedSys.setPc .merge (.merging (.logged ephemeralSys.current)) = startedSys := by
    simp only [setPc]
    exact congrArg (fun f => { startedSys with pcs := f }) (Function.update_eq_self Party.merge _)
  have usage : usagePrepass fuel Snapshot.ephemeral = .ok (some Usage.empty) := by
    simp only [usagePrepass, run, bind, Except.bind, rows]
    rfl
  obtain ⟨md, merged, dict⟩ : ∃ md, mergeDictionaries Snapshot.ephemeral Usage.empty = .ok md ∧
      md.dict = Segment.empty.dict := ⟨_, rfl, by decide +kernel⟩
  have built : buildMerged fuel ⟨.balanced, none⟩ Snapshot.ephemeral md = .ok (some emptyBase) := by
    simp only [buildMerged, run, bind, Except.bind, rows, List.mapM_nil, dict]
    rfl
  have counts : startedSys.mergeStep (.prepass fuel) (.logged ephemeralSys.current) =
      some (.counted ephemeralSys.current Usage.empty) := by
    simp only [mergeStep, frozen, usage]
  have maps : startedSys.mergeStep .mergeDictionaries (.counted ephemeralSys.current Usage.empty) =
      some (.mapped ephemeralSys.current md) := by
    simp only [mergeStep, frozen, merged]
  have builds : startedSys.mergeStep (.build fuel ⟨.balanced, none⟩)
      (.mapped ephemeralSys.current md) = some (.built emptyJob) := by
    simp only [mergeStep, frozen, built]
    rfl
  refine ⟨fuel, ?_⟩
  rw [run_append, run_started, Option.bind_some, ← logged]
  simp only [mergeWorks, Sys.run, next_mergeWork counts, next_mergeWork maps,
    next_mergeWork builds, Option.bind_some]
  rfl

/-- The transaction a party answers next. -/
def nextAnswer : Pc → Option GroupTx
  | .answering run (.ok _) n => run.planned[n]?
  | _ => none

/-- The calls of a group that is about to start. -/
def collectedGroup : Pc → Option (List Nat)
  | .collected none none group => some group
  | _ => none

theorem collected_of_group {pc : Pc} {group : List Nat} (h : collectedGroup pc = some group) :
    ∃ group, pc = .collected none none group := by
  simp only [collectedGroup] at h
  split at h
  · exact ⟨_, rfl⟩
  · cases h

theorem acknowledges_of_nextAnswer {s : Sys} {p : Party} {m : GroupTx}
    (h : nextAnswer (s.pcs p) = some m) : s.Acknowledges p m := by
  cases pc : s.pcs p with
  | answering run written n =>
      cases written with
      | ok u => exact ⟨run, u, n, pc, by simpa [nextAnswer, pc] using h⟩
      | error e => simp [nextAnswer, pc] at h
  | idle | checked | admitted | waiting | elected | collected | planning | draining | returned
  | merging | acquiring | swapping => simp [nextAnswer, pc] at h

/-- Take the steps of a list in order, none of which writes through an unlinked handle. -/
def linkedRun (txs : Nat → Tx) : List Action → Sys → Option Sys
  | [], s => some s
  | a :: rest, s =>
      if s.writesUnlinked a then none else (s.next txs a).bind (linkedRun txs rest)

theorem linkedSteps_of_run {txs : Nat → Tx} {actions : List Action} {s s' : Sys}
    (h : linkedRun txs actions s = some s') : Relation.ReflTransGen (LinkedStep txs) s s' := by
  induction actions generalizing s with
  | nil =>
      cases h
      exact .refl
  | cons a rest ih =>
      simp only [linkedRun] at h
      split at h
      · cases h
      · rename_i linked
        obtain ⟨mid, step, run⟩ := Option.bind_eq_some_iff.mp h
        exact .head ⟨a, step, Bool.not_eq_true _ ▸ linked⟩ (ih run)

/-- Whether the action writes the frames of a group. -/
def isWrite : Action → Bool
  | .write _ _ => true
  | _ => false

/-- Without group writes every step is linked. -/
theorem linkedSteps_of_noWrite {txs : Nat → Tx} {actions : List Action} {s s' : Sys}
    (noWrite : actions.all (fun a => !isWrite a) = true) (h : Sys.run txs actions s = some s') :
    Relation.ReflTransGen (LinkedStep txs) s s' := by
  induction actions generalizing s with
  | nil =>
      cases h
      exact .refl
  | cons a rest ih =>
      rw [List.all_cons, Bool.and_eq_true] at noWrite
      obtain ⟨mid, step, run⟩ := Option.bind_eq_some_iff.mp h
      refine .head ⟨a, step, ?_⟩ (ih noWrite.2 run)
      cases a with
      | write p outcome => simp [isWrite] at noWrite
      | _ => rfl

/-- The rename failed: the queued call is answered, and its frames are in the log and stay
there. -/
theorem acknowledged_logged_renameFailed : ∃ s m,
    linkedRun twoAdds (activationFails .renameFailed ++ drainsGroup) builtSys = some s ∧
      s.poisoned = true ∧ s.Acknowledges .merge m ∧ m.tx.frames <:+: s.log ∧
      ∀ s', Relation.ReflTransGen (KeepingStep twoAdds) s s' → m.tx.frames <:+: s'.log := by
  have runs : (linkedRun twoAdds (activationFails .renameFailed ++ drainsGroup) builtSys).map
      (fun s => (s.poisoned, (nextAnswer (s.pcs .merge)).isSome)) = some (true, true) := by
    decide +kernel
  obtain ⟨s, run, flags⟩ := Option.map_eq_some_iff.mp runs
  obtain ⟨poisoned, next⟩ := Prod.mk.inj flags
  obtain ⟨m, hm⟩ := Option.isSome_iff_exists.mp next
  have acks := acknowledges_of_nextAnswer hm
  obtain ⟨fuel, works⟩ := run_mergeWorks
  have linked := linkedSteps_of_noWrite (by rfl) works
  exact ⟨s, m, run, poisoned, acks,
    acknowledged_logged (linked.trans (linkedSteps_of_run run)) acks⟩

/-- The directory sync failed after the rename: the queued call is planned after the
failure and answered, and its frames are not in the log. -/
theorem not_acknowledged_logged_syncFailed : ∃ s₁ s m,
    Reachable twoAdds Snapshot.ephemeral s₁ ∧ s₁.poisoned = true ∧
      (∃ group, s₁.pcs .merge = .collected none none group) ∧
      Relation.ReflTransGen (Step twoAdds) s₁ s ∧ s.Acknowledges .merge m ∧
      ¬ m.tx.frames <:+: s.log := by
  have before : (Sys.run twoAdds (activationFails .syncFailed) builtSys).map
      (fun s₁ => (s₁.poisoned, collectedGroup (s₁.pcs .merge))) = some (true, some [0]) := by
    decide +kernel
  have after : (Sys.run twoAdds (activationFails .syncFailed ++ drainsGroup) builtSys).map
      (fun s => ((nextAnswer (s.pcs .merge)).map fun m => m.tx.frames, s.log)) =
      some (some (txRecords 1 [(false, .ofLetters 1 2 3)]), [.mergeCommit 1, .checkpoint 0]) := by
    decide +kernel
  obtain ⟨fuel, works⟩ := run_mergeWorks
  obtain ⟨s₁, run₁, found⟩ := Option.map_eq_some_iff.mp before
  obtain ⟨poisoned, group⟩ := Prod.mk.inj found
  rw [run_append, run₁] at after
  obtain ⟨s, run, found⟩ := Option.map_eq_some_iff.mp after
  obtain ⟨next, log⟩ := Prod.mk.inj found
  obtain ⟨m, hm, frames⟩ := Option.map_eq_some_iff.mp next
  have reached : Sys.run twoAdds ((mergeLogged ++ mergeWorks fuel) ++ activationFails .syncFailed)
      ephemeralSys = some s₁ := by
    rw [run_append, works]
    exact run₁
  refine ⟨s₁, s, m, reachable_of_run reached, poisoned, collected_of_group group, steps_of_run run,
    acknowledges_of_nextAnswer hm, ?_⟩
  rw [frames, log]
  decide

end Concrete

end Sys

end Graphy
