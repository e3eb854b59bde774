import Graphy.Store.System

/-!
# Steps of the system

`Move` lists what each action does.  `Control` is the exclusion argument: the
leader flag is up exactly when one party leads.
-/

namespace Graphy

variable [InlineCodec]

namespace Sys

def Step (txs : Nat → Tx) (s s' : Sys) : Prop := ∃ a, s.next txs a = some s'

/-- A store nobody has called yet. -/
def init (snap : Snapshot) (hard : Nat) (merger : Bool) (log : List WalRecord) : Sys where
  current := ⟨snap.base, 0, snap.generation, snap.epoch⟩
  deltas := fun _ => snap.delta
  pending := []
  leader := false
  swapWaiting := false
  poisoned := false
  hard := hard
  merger := merger
  log := log
  live := true
  slots := fun _ => none
  pcs := fun _ => .idle
  answers := fun _ => []
  history := []
  published := []

/-- The states of every run of the calls `txs` from a store. -/
def Reachable (txs : Nat → Tx) (snap : Snapshot) (s : Sys) : Prop :=
  ∃ hard merger log, Relation.ReflTransGen (Step txs) (init snap hard merger log) s

theorem run_append (txs : Nat → Tx) (a b : List Action) (s : Sys) :
    Sys.run txs (a ++ b) s = (Sys.run txs a s).bind (Sys.run txs b) := by
  induction a generalizing s with
  | nil => rfl
  | cons x a ih =>
      simp only [List.cons_append, Sys.run, Option.bind_assoc]
      exact congrArg _ (funext ih)

theorem steps_of_run {txs : Nat → Tx} {actions : List Action} {s s' : Sys}
    (h : Sys.run txs actions s = some s') : Relation.ReflTransGen (Step txs) s s' := by
  induction actions generalizing s with
  | nil =>
      cases h
      exact .refl
  | cons a rest ih =>
      obtain ⟨mid, step, run⟩ := Option.bind_eq_some_iff.mp h
      exact .head ⟨a, step⟩ (ih run)

/-! ## Moves -/

/-- The effect of each action. -/
inductive Move (txs : Nat → Tx) (s : Sys) : Action → Sys → Prop where
  | enter {c : Nat} (pc : s.pcs (.call c) = .idle) :
      Move txs s (.enter c) (s.setPc (.call c) .checked)
  | enterPoisoned {c : Nat} (pc : s.pcs (.call c) = .idle) (poisoned : s.poisoned = true) :
      Move txs s (.enter c)
        ((s.note c (.error poisonedError)).setPc (.call c) (.returned (.error poisonedError)))
  | pass {c : Nat} (pc : s.pcs (.call c) = .checked) :
      Move txs s (.pass c) (s.setPc (.call c) .admitted)
  | refuse {c : Nat} {e : StoreError} (pc : s.pcs (.call c) = .checked) :
      Move txs s (.refuse c) ((s.note c (.error e)).setPc (.call c) (.returned (.error e)))
  | enqueue {c : Nat} (pc : s.pcs (.call c) = .admitted)
      (busy : s.leader = true ∨ s.swapWaiting = true) :
      Move txs s (.request c) ({ s with pending := s.pending ++ [c] }.setPc (.call c) .waiting)
  | elect {c : Nat} (pc : s.pcs (.call c) = .admitted) (free : s.leader = false)
      (noSwap : s.swapWaiting = false) :
      Move txs s (.request c) ({ s with leader := true }.setPc (.call c) .elected)
  | wake {c : Nat} {a : Answer} (pc : s.pcs (.call c) = .waiting) (slot : s.slots c = some a) :
      Move txs s (.wake c)
        ({ s with slots := Function.update s.slots c none }.setPc (.call c) (.returned a))
  | collect {c : Nat} (pc : s.pcs (.call c) = .elected) :
      Move txs s (.collect c) ({ s with pending := [] }.setPc (.call c)
        (.collected (some c) none (c :: s.pending)))
  | start {p : Party} {mine : Option Nat} {own : Option Answer} {group : List Nat}
      (pc : s.pcs p = .collected mine own group) :
      Move txs s (.start p) (s.setPc p (.planning ⟨s.current,
        GroupPlan.start (s.deref s.current) s.hard, group, [], mine, own⟩))
  | plan {p : Party} {run : GroupRun} {c : Nat} {rest : List Nat} (pc : s.pcs p = .planning run)
      (todo : run.todo = c :: rest) : Move txs s (.plan p) (s.planNext txs p run c rest)
  | write {p : Party} {run : GroupRun} (pc : s.pcs p = .planning run) (todo : run.todo = []) :
      Move txs s (.write p (.ok ()))
        ((s.append run.plan.frames).setPc p (.answering run (.ok ()) 0))
  | writeFailed {p : Party} {run : GroupRun} {message : String} (pc : s.pcs p = .planning run)
      (todo : run.todo = []) :
      Move txs s (.write p (.error message)) (s.setPc p (.answering run (.error message) 0))
  | answer {p : Party} {run : GroupRun} {written : Except String Unit} {next : Nat} {m : GroupTx}
      (pc : s.pcs p = .answering run written next) (get : run.planned[next]? = some m) :
      Move txs s (.answer p) (s.answerNext p run written next m)
  | publish {p : Party} {run : GroupRun} {written : Except String Unit}
      (pc : s.pcs p = .answering run written run.planned.length) :
      Move txs s (.publish p) (s.publishGroup p run written)
  | release {c : Nat} {a : Answer} (pc : s.pcs (.call c) = .draining (some a))
      (done : s.pending = [] ∨ s.swapWaiting = true) :
      Move txs s (.drain (.call c)) ({ s with leader := false }.setPc (.call c) (.returned a))
  | releaseMerge {own : Option Answer} (pc : s.pcs .merge = .draining own)
      (done : s.pending = [] ∨ s.swapWaiting = true) :
      Move txs s (.drain .merge) ({ s with leader := false }.setPc .merge .idle)
  | take {p : Party} {own : Option Answer} (pc : s.pcs p = .draining own)
      (noSwap : s.swapWaiting = false) :
      Move txs s (.drain p) ({ s with pending := [] }.setPc p (.collected none own s.pending))
  | mergeStart (pc : s.pcs .merge = .idle) :
      Move txs s .mergeStart (s.setPc .merge (.merging (.frozen s.current)))
  | mergeLog {freeze : SnapRef} (pc : s.pcs .merge = .merging (.frozen freeze)) :
      Move txs s (.mergeLog (.ok ()))
        ((s.append [.mergeStart freeze.epoch]).setPc .merge (.merging (.logged freeze)))
  | mergeNotLogged {freeze : SnapRef} {message : String}
      (pc : s.pcs .merge = .merging (.frozen freeze)) :
      Move txs s (.mergeLog (.error message)) (s.setPc .merge .idle)
  | mergeWork {work : MergeWork} {stage stage' : MergeStage}
      (pc : s.pcs .merge = .merging stage) (done : s.mergeStep work stage = some stage') :
      Move txs s (.mergeWork work) (s.setPc .merge (.merging stage'))
  | mergeFail {stage : MergeStage} (pc : s.pcs .merge = .merging stage) :
      Move txs s .mergeFail (s.setPc .merge .idle)
  | await {job : MergeJob} (pc : s.pcs .merge = .merging (.built job)) (busy : s.leader = true) :
      Move txs s .acquire ({ s with swapWaiting := true }.setPc .merge (.acquiring job))
  | acquire {job : MergeJob} (pc : s.pcs .merge = .merging (.built job))
      (free : s.leader = false) :
      Move txs s .acquire ({ s with leader := true }.setPc .merge (.swapping job))
  | seize {job : MergeJob} (pc : s.pcs .merge = .acquiring job) (free : s.leader = false) :
      Move txs s .seize
        ({ s with swapWaiting := false, leader := true }.setPc .merge (.swapping job))
  | swap {job : MergeJob} {remap : SuffixRemap} {outcome : Swap}
      (pc : s.pcs .merge = .swapping job)
      (carried : outcome = .aborted ∨
        job.remap.pass (s.deref s.current) job.newBase s.current.epoch = some remap) :
      Move txs s (.swap outcome) (s.swapped job remap outcome)
  | configure {hard : Nat} {merger : Bool} :
      Move txs s (.configure hard merger) { s with hard := hard, merger := merger }

theorem next_move {txs : Nat → Tx} {s s' : Sys} {a : Action} (h : s.next txs a = some s') :
    Move txs s a s' := by
  cases a with
  | enter c =>
      simp only [next] at h
      split at h
      · rename_i pc
        split at h
        · rename_i poisoned
          cases h
          exact .enterPoisoned pc poisoned
        · cases h
          exact .enter pc
      · cases h
  | pass c =>
      simp only [next] at h
      split at h
      · rename_i pc
        split at h
        · cases h
          exact .pass pc
        · cases h
      · cases h
  | refuse c =>
      simp only [next] at h
      split at h
      · rename_i pc
        split at h
        · cases h
          exact .refuse pc
        · cases h
      · cases h
  | request c =>
      simp only [next] at h
      split at h
      · rename_i pc
        split at h
        · rename_i busy
          cases h
          exact .enqueue pc busy
        · rename_i free
          rw [not_or, Bool.not_eq_true, Bool.not_eq_true] at free
          cases h
          exact .elect pc free.1 free.2
      · cases h
  | wake c =>
      simp only [next] at h
      split at h
      · rename_i pc slot
        cases h
        exact .wake pc slot
      · cases h
  | collect c =>
      simp only [next] at h
      split at h
      · rename_i pc
        cases h
        exact .collect pc
      · cases h
  | start p =>
      simp only [next] at h
      split at h
      · rename_i pc
        cases h
        exact .start pc
      · cases h
  | plan p =>
      simp only [next] at h
      split at h
      · rename_i pc
        split at h
        · cases h
        · rename_i todo
          cases h
          exact .plan pc todo
      · cases h
  | write p outcome =>
      simp only [next] at h
      split at h
      · rename_i pc
        split at h
        · rename_i todo
          cases h
          exact .write pc todo
        · rename_i todo
          cases h
          exact .writeFailed pc todo
        · cases h
      · cases h
  | answer p =>
      simp only [next] at h
      split at h
      · rename_i pc
        split at h
        · rename_i get
          cases h
          exact .answer pc get
        · cases h
      · cases h
  | publish p =>
      simp only [next] at h
      split at h
      · rename_i pc
        split at h
        · rename_i last
          subst last
          cases h
          exact .publish pc
        · cases h
      · cases h
  | drain p =>
      simp only [next] at h
      split at h
      · rename_i pc
        split at h
        · rename_i done
          split at h
          · cases h
            exact .release pc done
          · cases h
            exact .releaseMerge pc done
          · cases h
        · rename_i more
          rw [not_or, Bool.not_eq_true] at more
          cases h
          exact .take pc more.2
      · cases h
  | mergeStart =>
      simp only [next] at h
      split at h
      · rename_i pc
        cases h
        exact .mergeStart pc
      · cases h
  | mergeLog outcome =>
      simp only [next] at h
      split at h
      · rename_i pc
        cases h
        exact .mergeLog pc
      · rename_i pc
        cases h
        exact .mergeNotLogged pc
      · cases h
  | mergeWork work =>
      simp only [next] at h
      split at h
      · rename_i pc
        obtain ⟨stage, done, rfl⟩ := Option.map_eq_some_iff.mp h
        exact .mergeWork pc done
      · cases h
  | mergeFail =>
      simp only [next] at h
      split at h
      · rename_i pc
        cases h
        exact .mergeFail pc
      · cases h
  | acquire =>
      simp only [next] at h
      split at h
      · rename_i pc
        split at h
        · rename_i busy
          cases h
          exact .await pc busy
        · rename_i free
          cases h
          exact .acquire pc (Bool.not_eq_true _ ▸ free)
      · cases h
  | seize =>
      simp only [next] at h
      split at h
      · rename_i pc
        split at h
        · cases h
        · rename_i free
          cases h
          exact .seize pc (Bool.not_eq_true _ ▸ free)
      · cases h
  | swap outcome =>
      simp only [next] at h
      split at h
      · rename_i pc
        split at h
        · rename_i aborted
          cases h
          subst aborted
          exact .swap pc (Or.inl rfl)
        · obtain ⟨remap, carried, rfl⟩ := Option.map_eq_some_iff.mp h
          exact .swap pc (Or.inr carried)
      · cases h
  | configure hard merger =>
      cases h
      exact .configure

end Sys

/-! ## Exclusion -/

/-- Whether a party at this point holds leadership. -/
def Pc.leads : Pc → Bool
  | .elected | .collected .. | .planning _ | .answering .. | .draining _ | .swapping _ => true
  | _ => false

/-- Points only a call is at. -/
def Pc.ofCall : Pc → Bool
  | .checked | .admitted | .waiting | .elected | .returned _ => true
  | _ => false

/-- Points only the merge is at. -/
def Pc.ofMerge : Pc → Bool
  | .merging _ | .acquiring _ | .swapping _ => true
  | _ => false

/-- The leader's own call while its transaction is in the group. -/
def Pc.mine (p : Party) : Pc → Option Nat
  | .elected =>
      match p with
      | .call c => some c
      | .merge => none
  | .collected mine _ _ => mine
  | .planning run => run.mine
  | .answering run _ _ => run.mine
  | _ => none

namespace Sys

section Frames

variable (s : Sys) (p : Party) (run : GroupRun) (c : Nat) (a : Answer)

omit [InlineCodec]

/-- What delivering an answer leaves alone. -/
theorem deliver_frame : (s.deliver run c a).1.pcs = s.pcs ∧
    (s.deliver run c a).1.leader = s.leader ∧ (s.deliver run c a).1.swapWaiting = s.swapWaiting ∧
    (s.deliver run c a).1.pending = s.pending ∧ (s.deliver run c a).1.current = s.current ∧
    (s.deliver run c a).1.deltas = s.deltas ∧ (s.deliver run c a).1.history = s.history ∧
    (s.deliver run c a).1.published = s.published ∧ (s.deliver run c a).1.log = s.log ∧
    (s.deliver run c a).1.live = s.live := by
  simp only [deliver]
  split <;> exact ⟨rfl, rfl, rfl, rfl, rfl, rfl, rfl, rfl, rfl, rfl⟩

/-- What delivering an answer leaves alone in the run. -/
theorem deliver_run : (s.deliver run c a).2.start = run.start ∧
    (s.deliver run c a).2.plan = run.plan ∧ (s.deliver run c a).2.todo = run.todo ∧
    (s.deliver run c a).2.planned = run.planned ∧ (s.deliver run c a).2.mine = run.mine := by
  simp only [deliver]
  split <;> exact ⟨rfl, rfl, rfl, rfl, rfl⟩

end Frames

/-- The queue and the leadership flags are the same. -/
structure SameQueue (s s' : Sys) : Prop where
  leader : s'.leader = s.leader
  swapWaiting : s'.swapWaiting = s.swapWaiting
  pending : s'.pending = s.pending

/-- Planning keeps the queue and stays at planning. -/
theorem planNext_frame (txs : Nat → Tx) (s : Sys) (p : Party) (run : GroupRun) (c : Nat)
    (rest : List Nat) : SameQueue s (s.planNext txs p run c rest) ∧
      ∃ run', (s.planNext txs p run c rest).pcs = Function.update s.pcs p (.planning run') ∧
        run'.mine = run.mine ∧ run'.start = run.start := by
  simp only [planNext]
  cases (planOne s.merger (s.deref run.start) run.plan (txs c)).2.2 with
  | planned tx => exact ⟨⟨rfl, rfl, rfl⟩, _, rfl, rfl, rfl⟩
  | unchanged =>
      obtain ⟨pcs, l, w, q, -⟩ := deliver_frame _ _ _ _
      obtain ⟨start, -, -, -, mine⟩ := deliver_run _ _ _ _
      exact ⟨⟨l, w, q⟩, _, congrArg (fun f => Function.update f p _) pcs, mine, start⟩
  | failed e =>
      obtain ⟨pcs, l, w, q, -⟩ := deliver_frame _ _ _ _
      obtain ⟨start, -, -, -, mine⟩ := deliver_run _ _ _ _
      exact ⟨⟨l, w, q⟩, _, congrArg (fun f => Function.update f p _) pcs, mine, start⟩

theorem planNext_current (txs : Nat → Tx) (s : Sys) (p : Party) (run : GroupRun) (c : Nat)
    (rest : List Nat) : (s.planNext txs p run c rest).current = s.current := by
  simp only [planNext]
  split
  · rfl
  · exact (deliver_frame _ _ _ _).2.2.2.2.1
  · exact (deliver_frame _ _ _ _).2.2.2.2.1

omit [InlineCodec] in
theorem answerNext_current (s : Sys) (p : Party) (run : GroupRun) (written : Except String Unit)
    (next : Nat) (m : GroupTx) : (s.answerNext p run written next m).current = s.current := by
  cases written with
  | error message => exact (deliver_frame _ _ _ _).2.2.2.2.1
  | ok u =>
      exact (deliver_frame (s.setDelta run.start.arc ((s.deref run.start).record m.tx).delta) run
        m.call (.ok { run.start with epoch := m.tx.epoch })).2.2.2.2.1

omit [InlineCodec] in
/-- Answering keeps the queue and moves to the next planned transaction. -/
theorem answerNext_frame (s : Sys) (p : Party) (run : GroupRun) (written : Except String Unit)
    (next : Nat) (m : GroupTx) : SameQueue s (s.answerNext p run written next m) ∧
      ∃ run', (s.answerNext p run written next m).pcs =
          Function.update s.pcs p (.answering run' written (next + 1)) ∧
        run'.mine = run.mine ∧ run'.start = run.start ∧ run'.planned = run.planned := by
  cases written with
  | error message =>
      obtain ⟨pcs, l, w, q, -⟩ := deliver_frame s run m.call (.error (.corrupt message))
      obtain ⟨start, -, -, planned, mine⟩ := deliver_run s run m.call (.error (.corrupt message))
      exact ⟨⟨l, w, q⟩, _, congrArg (fun f => Function.update f p _) pcs, mine, start, planned⟩
  | ok u =>
      simp only [answerNext]
      obtain ⟨pcs, l, w, q, -⟩ := deliver_frame (s.setDelta run.start.arc
        ((s.deref run.start).record m.tx).delta) run m.call (.ok { run.start with epoch := m.tx.epoch })
      obtain ⟨start, -, -, planned, mine⟩ := deliver_run (s.setDelta run.start.arc
        ((s.deref run.start).record m.tx).delta) run m.call (.ok { run.start with epoch := m.tx.epoch })
      exact ⟨⟨l, w, q⟩, _, congrArg (fun f => Function.update f p _) pcs, mine, start, planned⟩

omit [InlineCodec] in
theorem publishGroup_frame (s : Sys) (p : Party) (run : GroupRun) (written : Except String Unit) :
    SameQueue s (s.publishGroup p run written) ∧
      (s.publishGroup p run written).pcs = Function.update s.pcs p (.draining run.own) := by
  simp only [publishGroup]
  split <;> exact ⟨⟨rfl, rfl, rfl⟩, rfl⟩

omit [InlineCodec] in
theorem swapped_frame (s : Sys) (job : MergeJob) (remap : SuffixRemap) (outcome : Swap) :
    SameQueue s (s.swapped job remap outcome) ∧
      (s.swapped job remap outcome).pcs = Function.update s.pcs .merge (.draining none) := by
  cases outcome with
  | aborted => exact ⟨⟨rfl, rfl, rfl⟩, rfl⟩
  | activationFailed at_ =>
      simp only [swapped]
      split <;> exact ⟨⟨rfl, rfl, rfl⟩, rfl⟩
  | published => exact ⟨⟨rfl, rfl, rfl⟩, rfl⟩

omit [InlineCodec] in
theorem append_frame (s : Sys) (frames : List WalRecord) :
    SameQueue s (s.append frames) ∧ (s.append frames).pcs = s.pcs := by
  simp only [append]
  split <;> exact ⟨⟨rfl, rfl, rfl⟩, rfl⟩

/-- The leader flag is up exactly when one party leads, the merge's flag exactly when
it waits, and queued transactions have somebody to take them. -/
structure Control (s : Sys) : Prop where
  unique : ∀ p q, (s.pcs p).leads = true → (s.pcs q).leads = true → p = q
  leader : s.leader = true ↔ ∃ p, (s.pcs p).leads = true
  waiting : s.swapWaiting = true ↔ ∃ job, s.pcs .merge = .acquiring job
  queue : s.pending ≠ [] → s.leader = true ∨ s.swapWaiting = true
  call : ∀ c, (s.pcs (.call c)).ofMerge = false
  merge : (s.pcs .merge).ofCall = false
  mine : ∀ p c, (s.pcs p).mine p = some c → p = .call c
  next_le : ∀ p run written next, s.pcs p = .answering run written next →
    next ≤ run.planned.length

/-- How a step changes leadership: the party keeps its part in it, takes it while it is
free, or gives it back. -/
inductive LeadStep (s s' : Sys) (old new : Pc) : Prop where
  | keep (leads : new.leads = old.leads) (flag : s'.leader = s.leader)
  | take (free : s.leader = false) (leads : new.leads = true) (flag : s'.leader = true)
  | release (led : old.leads = true) (leads : new.leads = false) (flag : s'.leader = false)

/-- A point of the party itself. -/
structure PcOk (p : Party) (pc : Pc) : Prop where
  call : ∀ c, p = .call c → pc.ofMerge = false
  merge : p = .merge → pc.ofCall = false
  mine : ∀ c, pc.mine p = some c → p = .call c
  next_le : ∀ run written next, pc = .answering run written next → next ≤ run.planned.length

omit [InlineCodec] in
theorem Control.step {s s' : Sys} (ctl : s.Control) {p : Party} {x : Pc}
    (pcs : s'.pcs = Function.update s.pcs p x) (lead : LeadStep s s' (s.pcs p) x)
    (waiting : s'.swapWaiting = true ↔ ∃ job, s'.pcs .merge = .acquiring job)
    (queue : s'.pending ≠ [] → s'.leader = true ∨ s'.swapWaiting = true) (ok : PcOk p x) :
    s'.Control := by
  have here : s'.pcs p = x := by rw [pcs, Function.update_self]
  have there {q : Party} (ne : q ≠ p) : s'.pcs q = s.pcs q := by rw [pcs, Function.update_of_ne ne]
  have leader : s'.leader = true ↔ ∃ q, (s'.pcs q).leads = true := by
    cases lead with
    | keep leads flag =>
        rw [flag, ctl.leader]
        refine exists_congr fun q => ?_
        by_cases eq : q = p
        · rw [eq, here, leads]
        · rw [there eq]
    | take free leads flag => exact iff_of_true flag ⟨p, by rw [here, leads]⟩
    | release led leads flag =>
        refine iff_of_false (by simp [flag]) ?_
        rintro ⟨q, other⟩
        by_cases eq : q = p
        · rw [eq, here, leads] at other
          cases other
        · rw [there eq] at other
          exact eq (ctl.unique q p other led)
  have unique : ∀ q r, (s'.pcs q).leads = true → (s'.pcs r).leads = true → q = r := by
    cases lead with
    | keep leads flag =>
        intro q r hq hr
        have back {q : Party} (h : (s'.pcs q).leads = true) : (s.pcs q).leads = true := by
          by_cases eq : q = p
          · rw [eq, here, leads] at h
            rw [eq, h]
          · rwa [there eq] at h
        exact ctl.unique q r (back hq) (back hr)
    | take free leads flag =>
        have only {q : Party} (h : (s'.pcs q).leads = true) : q = p := by
          by_contra ne
          rw [there ne] at h
          simp [ctl.leader.mpr ⟨q, h⟩] at free
        exact fun q r hq hr => (only hq).trans (only hr).symm
    | release led leads flag =>
        intro q r hq hr
        have := leader.mpr ⟨q, hq⟩
        simp [flag] at this
  refine ⟨unique, leader, waiting, queue, ?_, ?_, ?_, ?_⟩
  · intro c
    by_cases eq : Party.call c = p
    · rw [eq, here]
      exact ok.call c eq.symm
    · rw [there eq]
      exact ctl.call c
  · by_cases eq : Party.merge = p
    · rw [eq, here]
      exact ok.merge eq.symm
    · rw [there eq]
      exact ctl.merge
  · intro q c
    by_cases eq : q = p
    · rw [eq, here]
      exact ok.mine c
    · rw [there eq]
      exact ctl.mine q c
  · intro q run written next
    by_cases eq : q = p
    · rw [eq, here]
      exact ok.next_le run written next
    · rw [there eq]
      exact ctl.next_le q run written next

omit [InlineCodec] in
/-- The merge's flag agrees with its point after a step that leaves the flag alone. -/
theorem Control.waiting_same {s s' : Sys} (ctl : s.Control) {p : Party} {x : Pc}
    (pcs : s'.pcs = Function.update s.pcs p x) (flag : s'.swapWaiting = s.swapWaiting)
    (old : ∀ job, s.pcs p ≠ .acquiring job) (new : ∀ job, x ≠ .acquiring job) :
    s'.swapWaiting = true ↔ ∃ job, s'.pcs .merge = .acquiring job := by
  rw [flag, ctl.waiting, pcs]
  by_cases eq : p = .merge
  · rw [← eq, Function.update_self]
    exact iff_of_false (not_exists.mpr old) (not_exists.mpr new)
  · rw [Function.update_of_ne (Ne.symm eq)]

omit [InlineCodec] in
/-- A step that leaves the queue alone and the party's part in leadership. -/
theorem Control.quiet {s s' : Sys} (ctl : s.Control) {p : Party} {x : Pc} (same : SameQueue s s')
    (pcs : s'.pcs = Function.update s.pcs p x) (leads : x.leads = (s.pcs p).leads)
    (old : ∀ job, s.pcs p ≠ .acquiring job) (new : ∀ job, x ≠ .acquiring job) (ok : PcOk p x) :
    s'.Control := by
  refine ctl.step pcs (.keep leads same.leader)
    (ctl.waiting_same pcs same.swapWaiting old new) ?_ ok
  rw [same.leader, same.swapWaiting, same.pending]
  exact ctl.queue

omit [InlineCodec] in
/-- A point that no group is behind. -/
theorem pcOk_plain {p : Party} {x : Pc} (call : ∀ c, p = .call c → x.ofMerge = false)
    (merge : p = .merge → x.ofCall = false) (mine : x.mine p = none)
    (noAnswer : ∀ run written next, x ≠ .answering run written next) : PcOk p x where
  call := call
  merge := merge
  mine := by simp [mine]
  next_le := fun run written next eq => absurd eq (noAnswer run written next)

theorem Control.move {txs : Nat → Tx} {s s' : Sys} {a : Action} (ctl : s.Control)
    (move : Move txs s a s') : s'.Control := by
  cases move with
  | enter pc | pass pc =>
      exact ctl.quiet ⟨rfl, rfl, rfl⟩ rfl (by rw [pc]; rfl) (by simp [pc]) (by simp)
        (pcOk_plain (by simp [Pc.ofMerge]) (by simp) rfl (by simp))
  | enterPoisoned pc _ | refuse pc =>
      exact ctl.quiet ⟨rfl, rfl, rfl⟩ rfl (by rw [pc]; rfl) (by simp [pc]) (by simp)
        (pcOk_plain (by simp [Pc.ofMerge]) (by simp) rfl (by simp))
  | enqueue pc busy =>
      exact ctl.step rfl (.keep (by rw [pc]; rfl) rfl)
        (ctl.waiting_same rfl rfl (by simp [pc]) (by simp)) (fun _ => busy)
        (pcOk_plain (by simp [Pc.ofMerge]) (by simp) rfl (by simp))
  | elect pc free noSwap =>
      refine ctl.step rfl (.take free rfl rfl)
        (ctl.waiting_same rfl rfl (by simp [pc]) (by simp)) (fun _ => Or.inl rfl) ?_
      exact ⟨by simp [Pc.ofMerge], by simp, by simp [Pc.mine], by simp⟩
  | wake pc slot =>
      exact ctl.quiet ⟨rfl, rfl, rfl⟩ rfl (by rw [pc]; rfl) (by simp [pc]) (by simp)
        (pcOk_plain (by simp [Pc.ofMerge]) (by simp) rfl (by simp))
  | collect pc =>
      refine ctl.step rfl (.keep (by rw [pc]; rfl) rfl)
        (ctl.waiting_same rfl rfl (by simp [pc]) (by simp)) (fun h => absurd rfl h) ?_
      exact ⟨by simp [Pc.ofMerge], by simp, by simp [Pc.mine], by simp⟩
  | @start p mine own group pc =>
      refine ctl.quiet ⟨rfl, rfl, rfl⟩ rfl (by rw [pc]; rfl) (by simp [pc]) (by simp) ?_
      refine ⟨by simp [Pc.ofMerge], by simp [Pc.ofCall], ?_, by simp⟩
      intro c h
      exact ctl.mine p c (by rw [pc]; exact h)
  | @plan p run c rest pc todo =>
      obtain ⟨same, run', pcs, mine, -⟩ := planNext_frame txs s p run c rest
      refine ctl.quiet same pcs (by rw [pc]; rfl) (by simp [pc]) (by simp) ?_
      refine ⟨by simp [Pc.ofMerge], by simp [Pc.ofCall], ?_, by simp⟩
      intro c h
      exact ctl.mine p c (by rw [pc, ← h]; exact mine.symm)
  | @write p run pc todo =>
      obtain ⟨same, pcs⟩ := append_frame s run.plan.frames
      refine ctl.quiet (x := .answering run (.ok ()) 0) ⟨same.1, same.2, same.3⟩ ?_
        (by rw [pc]; rfl) (by simp [pc]) (by simp) ?_
      · simp only [setPc, pcs]
      · refine ⟨by simp [Pc.ofMerge], by simp [Pc.ofCall], ?_, ?_⟩
        · exact fun c h => ctl.mine p c (by rw [pc]; exact h)
        · rintro run' written next eq
          cases eq
          exact Nat.zero_le _
  | @writeFailed p run message pc todo =>
      refine ctl.quiet (x := .answering run (.error message) 0) ⟨rfl, rfl, rfl⟩ rfl
        (by rw [pc]; rfl) (by simp [pc]) (by simp) ?_
      refine ⟨by simp [Pc.ofMerge], by simp [Pc.ofCall], ?_, ?_⟩
      · exact fun c h => ctl.mine p c (by rw [pc]; exact h)
      · rintro run' written next eq
        cases eq
        exact Nat.zero_le _
  | @answer p run written next m pc get =>
      obtain ⟨same, run', pcs, mine, -, planned⟩ := answerNext_frame s p run written next m
      refine ctl.quiet same pcs (by rw [pc]; rfl) (by simp [pc]) (by simp) ?_
      refine ⟨by simp [Pc.ofMerge], by simp [Pc.ofCall], ?_, ?_⟩
      · exact fun c h => ctl.mine p c (by rw [pc, ← h]; exact mine.symm)
      · rintro run'' written' next' eq
        cases eq
        rw [planned]
        exact (List.getElem?_eq_some_iff.mp get).1
  | @publish p run written pc =>
      obtain ⟨same, pcs⟩ := publishGroup_frame s p run written
      exact ctl.quiet same pcs (by rw [pc]; rfl) (by simp [pc]) (by simp)
        (pcOk_plain (by simp [Pc.ofMerge]) (by simp [Pc.ofCall]) rfl (by simp))
  | release pc done =>
      refine ctl.step rfl (.release (by rw [pc]; rfl) rfl rfl)
        (ctl.waiting_same rfl rfl (by simp [pc]) (by simp)) ?_
        (pcOk_plain (by simp [Pc.ofMerge]) (by simp) rfl (by simp))
      exact fun some_ => Or.inr (done.resolve_left some_)
  | releaseMerge pc done =>
      refine ctl.step rfl (.release (by rw [pc]; rfl) rfl rfl)
        (ctl.waiting_same rfl rfl (by simp [pc]) (by simp)) ?_
        (pcOk_plain (by simp) (by simp [Pc.ofCall]) rfl (by simp))
      exact fun some_ => Or.inr (done.resolve_left some_)
  | @take p own pc noSwap =>
      refine ctl.step rfl (.keep (by rw [pc]; rfl) rfl)
        (ctl.waiting_same rfl rfl (by simp [pc]) (by simp)) (fun h => absurd rfl h) ?_
      exact pcOk_plain (by simp [Pc.ofMerge]) (by simp [Pc.ofCall]) rfl (by simp)
  | @mergeLog freeze pc =>
      obtain ⟨same, pcs⟩ := append_frame s [.mergeStart freeze.epoch]
      refine ctl.quiet (p := .merge) (x := .merging (.logged freeze)) ⟨same.1, same.2, same.3⟩ ?_
        (by rw [pc]; rfl) (by simp [pc]) (by simp)
        (pcOk_plain (by simp) (by simp [Pc.ofCall]) rfl (by simp))
      simp only [setPc, pcs]
  | mergeStart pc | mergeNotLogged pc | mergeWork pc _ | mergeFail pc =>
      exact ctl.quiet ⟨rfl, rfl, rfl⟩ rfl (by rw [pc]; rfl) (by simp [pc]) (by simp)
        (pcOk_plain (by simp) (by simp [Pc.ofCall]) rfl (by simp))
  | await pc busy =>
      exact ctl.step rfl (.keep (by rw [pc]; rfl) rfl) (by simp [setPc]) (fun _ => Or.inr rfl)
        (pcOk_plain (by simp) (by simp [Pc.ofCall]) rfl (by simp))
  | acquire pc free =>
      exact ctl.step rfl (.take free rfl rfl)
        (ctl.waiting_same rfl rfl (by simp [pc]) (by simp)) (fun _ => Or.inl rfl)
        (pcOk_plain (by simp) (by simp [Pc.ofCall]) rfl (by simp))
  | seize pc free =>
      exact ctl.step rfl (.take free rfl rfl) (by simp [setPc]) (fun _ => Or.inl rfl)
        (pcOk_plain (by simp) (by simp [Pc.ofCall]) rfl (by simp))
  | swap pc carried =>
      obtain ⟨same, pcs⟩ := swapped_frame s _ _ _
      exact ctl.quiet same pcs (by rw [pc]; rfl) (by simp [pc]) (by simp)
        (pcOk_plain (by simp) (by simp [Pc.ofCall]) rfl (by simp))
  | configure => exact ⟨ctl.1, ctl.2, ctl.3, ctl.4, ctl.5, ctl.6, ctl.7, ctl.8⟩

omit [InlineCodec] in
theorem control_init (snap : Snapshot) (hard : Nat) (merger : Bool) (log : List WalRecord) :
    (init snap hard merger log).Control where
  unique := by simp [init, Pc.leads]
  leader := by simp [init, Pc.leads]
  waiting := by simp [init]
  queue := by simp [init]
  call := by simp [init, Pc.ofMerge]
  merge := by simp [init, Pc.ofCall]
  mine := by simp [init, Pc.mine]
  next_le := by simp [init]

end Sys

end Graphy
