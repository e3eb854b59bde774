import Graphy.Store.Proofs.SystemCalls
import Mathlib.Data.List.Range

/-!
# Epochs of a running system

A leader numbers the transactions of its group from the published epoch up, answers them in
that order, and publishes the last one.  So the history of answers is in epoch order, and
ahead of the published epoch only by the transactions of a group that is being answered.
-/

namespace Graphy

/-- Whether the party is answering a written group. -/
def Pc.records : Pc → Bool
  | .answering _ (.ok _) _ => true
  | _ => false

/-- Points of a leader inside a group. -/
def Pc.inGroup : Pc → Bool
  | .planning _ | .answering .. => true
  | _ => false

theorem Pc.leads_of_inGroup {pc : Pc} (h : pc.inGroup = true) : pc.leads = true := by
  cases pc <;> first | rfl | cases h

theorem Pc.inGroup_of_records {pc : Pc} (h : pc.records = true) : pc.inGroup = true := by
  cases pc <;> first | rfl | cases h

/-- The run started from the published snapshot, and its transactions have the epochs after
it. -/
structure GroupRun.Numbered (run : GroupRun) (cur : SnapRef) : Prop where
  start : run.start = cur
  epochs : run.planned.map (fun m => m.tx.epoch) =
    List.range' (cur.epoch + 1) run.planned.length

theorem GroupRun.Numbered.above {run : GroupRun} {cur : SnapRef} (numbered : run.Numbered cur)
    {m : GroupTx} (mem : m ∈ run.planned) : cur.epoch < m.tx.epoch := by
  have inside : m.tx.epoch ∈ run.planned.map fun m => m.tx.epoch := List.mem_map_of_mem mem
  rw [numbered.epochs, List.mem_range'_1] at inside
  exact inside.1

theorem GroupRun.Numbered.ascending {run : GroupRun} {cur : SnapRef}
    (numbered : run.Numbered cur) :
    run.planned.Pairwise fun a b => a.tx.epoch < b.tx.epoch := by
  have sorted := List.pairwise_lt_range' (s := cur.epoch + 1) (n := run.planned.length)
  rw [← numbered.epochs, List.pairwise_map] at sorted
  exact sorted

/-- What holds of a leader's run over the published snapshot `cur`. -/
def RunEpochs (cur : SnapRef) (history : List (Nat × Nat)) : Pc → Prop
  | .planning run =>
      run.Numbered cur ∧ run.plan.epoch = cur.epoch + run.planned.length ∧
        run.plan.frames = run.planned.flatMap fun m => m.tx.frames
  | .answering run (.ok _) next =>
      run.Numbered cur ∧
        ∃ old, history = old ++ (run.planned.take next).map (fun m => (m.call, m.tx.epoch)) ∧
          ∀ h ∈ old, h.2 ≤ cur.epoch
  | .answering run (.error _) _ => run.start = cur
  | _ => True

theorem runEpochs_of_not_inGroup {cur : SnapRef} {history : List (Nat × Nat)} {pc : Pc}
    (h : pc.inGroup = false) : RunEpochs cur history pc := by
  cases pc <;> trivial

/-- The transaction an outcome adds to the planned ones. -/
def PlanOutcome.txs : PlanOutcome → List PlannedTx
  | .planned tx => [tx]
  | _ => []

/-- Planning numbers a transaction and buffers its frames. -/
theorem planOne_numbers [InlineCodec] (merger : Bool) (snap : Snapshot) (plan : GroupPlan) (tx : Tx) :
    let (_, plan', o) := planOne merger snap plan tx
    plan'.epoch = plan.epoch + o.txs.length ∧
      plan'.frames = plan.frames ++ o.txs.flatMap PlannedTx.frames ∧
      ∀ t ∈ o.txs, t.epoch = plan.epoch + 1 := by
  simp only [planOne]
  split
  · simp [PlanOutcome.txs]
  · cases commitCore snap tx.dels tx.adds plan.carry with
    | error e => simp [PlanOutcome.txs]
    | ok st =>
        by_cases empty : st.entries = []
        · simp [empty, PlanOutcome.txs]
        · simp [empty, PlanOutcome.txs]

namespace Sys

/-- The history is ahead of the published epoch only while a group is being answered. -/
structure EpochsOk (s : Sys) : Prop where
  runs : ∀ p, RunEpochs s.current s.history (s.pcs p)
  quiet : (∀ p, (s.pcs p).records = false) → ∀ h ∈ s.history, h.2 ≤ s.current.epoch
  sorted : s.history.Pairwise fun a b => a.2 < b.2
  published : s.published.Pairwise (· < ·) ∧ ∀ e ∈ s.published, e ≤ s.current.epoch

/-- Nobody else is inside a group while this party leads. -/
theorem Control.alone {s : Sys} (ctl : s.Control) {p : Party} (leads : (s.pcs p).leads = true)
    {q : Party} (ne : q ≠ p) : (s.pcs q).inGroup = false := by
  cases h : (s.pcs q).inGroup with
  | false => rfl
  | true => exact absurd (ctl.unique q p (Pc.leads_of_inGroup h) leads) ne

theorem Control.not_recording {s : Sys} (ctl : s.Control) {p : Party}
    (leads : (s.pcs p).leads = true) (here : (s.pcs p).records = false) (q : Party) :
    (s.pcs q).records = false := by
  by_cases eq : q = p
  · rw [eq, here]
  · cases h : (s.pcs q).records with
    | false => rfl
    | true =>
        have := ctl.alone leads eq
        rw [Pc.inGroup_of_records h] at this
        cases this

/-- A step that leaves the published snapshot and the history alone. -/
theorem EpochsOk.frame {s s' : Sys} (ok : s.EpochsOk) {p : Party} {x : Pc}
    (pcs : s'.pcs = Function.update s.pcs p x) (current : s'.current = s.current)
    (history : s'.history = s.history) (published : s'.published = s.published)
    (records : x.records = (s.pcs p).records) (run : RunEpochs s.current s.history x) :
    s'.EpochsOk := by
  have sameRecords (q : Party) : (s'.pcs q).records = (s.pcs q).records := by
    rw [pcs]
    by_cases eq : q = p
    · rw [eq, Function.update_self, records]
    · rw [Function.update_of_ne eq]
  refine ⟨?_, ?_, by rw [history]; exact ok.sorted, by rw [published, current]; exact ok.published⟩
  · intro q
    rw [current, history, pcs]
    by_cases eq : q = p
    · rw [eq, Function.update_self]
      exact run
    · rw [Function.update_of_ne eq]
      exact ok.runs q
  · intro none_
    rw [current, history]
    exact ok.quiet fun q => by rw [← sameRecords]; exact none_ q

/-- A step of the leader that moves the published epoch or the history; nobody else is
inside a group. -/
theorem EpochsOk.ofLeader {s s' : Sys} (ctl : s.Control) {p : Party} {x : Pc}
    (leads : (s.pcs p).leads = true) (pcs : s'.pcs = Function.update s.pcs p x)
    (run : RunEpochs s'.current s'.history x)
    (quiet : x.records = false → ∀ h ∈ s'.history, h.2 ≤ s'.current.epoch)
    (sorted : s'.history.Pairwise fun a b => a.2 < b.2)
    (published : s'.published.Pairwise (· < ·) ∧ ∀ e ∈ s'.published, e ≤ s'.current.epoch) :
    s'.EpochsOk := by
  refine ⟨?_, ?_, sorted, published⟩
  · intro q
    rw [pcs]
    by_cases eq : q = p
    · rw [eq, Function.update_self]
      exact run
    · rw [Function.update_of_ne eq]
      exact runEpochs_of_not_inGroup (ctl.alone leads eq)
  · intro none_
    apply quiet
    have := none_ p
    rwa [pcs, Function.update_self] at this

/-! ## The steps of a group -/

theorem append_same (s : Sys) (frames : List WalRecord) :
    (s.append frames).current = s.current ∧ (s.append frames).deltas = s.deltas ∧
      (s.append frames).history = s.history ∧ (s.append frames).published = s.published := by
  simp only [append]
  split <;> exact ⟨rfl, rfl, rfl, rfl⟩

theorem GroupRun.numbered_concat {run run' : GroupRun} {cur : SnapRef} {c : Nat} {o : PlanOutcome}
    (numbered : run.Numbered cur) (next : run.plan.epoch = cur.epoch + run.planned.length)
    (start : run'.start = run.start)
    (planned : run'.planned = run.planned ++ o.txs.map fun t => ⟨c, t⟩)
    (epochs : ∀ t ∈ o.txs, t.epoch = run.plan.epoch + 1) : run'.Numbered cur where
  start := start.trans numbered.start
  epochs := by
    rw [planned, List.map_append, numbered.epochs]
    cases o with
    | planned tx =>
        have epoch := epochs tx (by simp [PlanOutcome.txs])
        simp only [PlanOutcome.txs, List.map_cons, List.map_nil, List.length_append,
          List.length_singleton, List.range'_concat]
        congr 2
        omega
    | unchanged | failed => simp [PlanOutcome.txs]

theorem epochsOk_plan [InlineCodec] {txs : Nat → Tx} {s : Sys} (ok : s.EpochsOk) {p : Party}
    {run : GroupRun} (pc : s.pcs p = .planning run) (c : Nat) (rest : List Nat) :
    (s.planNext txs p run c rest).EpochsOk := by
  have inv := ok.runs p
  rw [pc] at inv
  obtain ⟨numbered, next, frames⟩ := inv
  have spec := planOne_numbers s.merger (s.deref run.start) run.plan (txs c)
  simp only [planNext]
  rcases h : planOne s.merger (s.deref run.start) run.plan (txs c) with ⟨snap, plan, o⟩
  rw [h] at spec
  obtain ⟨epoch, buffered, epochs⟩ := spec
  -- planning touches neither the published snapshot nor the history
  have finish (s' : Sys) (run' : GroupRun) (pcs : s'.pcs = Function.update s.pcs p (.planning run'))
      (current : s'.current = s.current) (history : s'.history = s.history)
      (published : s'.published = s.published) (start : run'.start = run.start)
      (plan' : run'.plan = plan)
      (planned : run'.planned = run.planned ++ o.txs.map fun t => ⟨c, t⟩) : s'.EpochsOk := by
    refine ok.frame pcs current history published (by rw [pc]; rfl) ⟨?_, ?_, ?_⟩
    · exact GroupRun.numbered_concat numbered next start planned epochs
    · rw [plan', epoch, next, planned, List.length_append, List.length_map]
      omega
    · rw [plan', buffered, frames, planned, List.flatMap_append, List.flatMap_map]
  cases o with
  | planned tx => exact finish _ _ rfl rfl rfl rfl rfl rfl (by simp [PlanOutcome.txs])
  | unchanged | failed =>
      simp only
      obtain ⟨pcs, -, -, -, current, -, history, published, -⟩ := deliver_frame
        (s.setDelta run.start.arc snap.delta) { run with plan := plan, todo := rest } c _
      obtain ⟨start, plan', -, planned, -⟩ := deliver_run
        (s.setDelta run.start.arc snap.delta) { run with plan := plan, todo := rest } c _
      exact finish _ _ (congrArg (fun f => Function.update f p _) pcs) current history published
        start plan' (planned.trans (by simp [PlanOutcome.txs]))

theorem epochsOk_answer {s : Sys} (ctl : s.Control) (ok : s.EpochsOk) {p : Party} {run : GroupRun}
    {written : Except String Unit} {next : Nat} {m : GroupTx}
    (pc : s.pcs p = .answering run written next) (get : run.planned[next]? = some m) :
    (s.answerNext p run written next m).EpochsOk := by
  have inv := ok.runs p
  rw [pc] at inv
  cases written with
  | error message =>
      obtain ⟨pcs, -, -, -, current, -, history, published, -⟩ :=
        deliver_frame s run m.call (.error (.corrupt message))
      obtain ⟨start, -⟩ := deliver_run s run m.call (.error (.corrupt message))
      exact ok.frame (congrArg (fun f => Function.update f p _) pcs) current history published
        (by rw [pc]; rfl) (start.trans inv)
  | ok u =>
      obtain ⟨numbered, old, split, below⟩ := inv
      have leads : (s.pcs p).leads = true := by rw [pc]; rfl
      obtain ⟨bound, here⟩ := List.getElem?_eq_some_iff.mp get
      have parts : run.planned = run.planned.take next ++ m :: run.planned.drop (next + 1) := by
        rw [← here, ← List.drop_eq_getElem_cons bound, List.take_append_drop]
      have taken : run.planned.take (next + 1) = run.planned.take next ++ [m] := by
        rw [List.take_add_one, get, Option.toList_some]
      have ahead := numbered.above (List.mem_of_getElem? get)
      -- the history so far is below the new epoch
      have later : ∀ h ∈ s.history, h.2 < m.tx.epoch := by
        intro h mem
        rw [split] at mem
        rcases List.mem_append.mp mem with before | same
        · exact lt_of_le_of_lt (below h before) ahead
        · obtain ⟨m', mem', rfl⟩ := List.mem_map.mp same
          have sorted := numbered.ascending
          rw [parts] at sorted
          exact (List.pairwise_append.mp sorted).2.2 m' mem' m List.mem_cons_self
      obtain ⟨-, -, -, -, current, -, history, published, -⟩ := deliver_frame
        (s.setDelta run.start.arc ((s.deref run.start).record m.tx).delta) run m.call
        (.ok { run.start with epoch := m.tx.epoch })
      obtain ⟨-, run', pcs, -, start, planned⟩ := answerNext_frame s p run (.ok u) next m
      have history' : (s.answerNext p run (.ok u) next m).history =
          s.history ++ [(m.call, m.tx.epoch)] := congrArg (· ++ _) history
      have current' : (s.answerNext p run (.ok u) next m).current = s.current := current
      have published' : (s.answerNext p run (.ok u) next m).published = s.published := published
      refine EpochsOk.ofLeader ctl leads pcs ?_ (by simp [Pc.records]) ?_
        (by rw [published', current']; exact ok.published)
      · refine ⟨⟨?_, ?_⟩, old, ?_, ?_⟩
        · rw [start, current', numbered.start]
        · rw [planned, current']
          exact numbered.epochs
        · rw [history', split, planned, taken]
          simp
        · rw [current']
          exact below
      · rw [history']
        refine List.pairwise_append.mpr ⟨ok.sorted, List.pairwise_singleton _ _, ?_⟩
        intro a ha b hb
        obtain rfl := List.mem_singleton.mp hb
        exact later a ha

theorem epochsOk_publish {s : Sys} (ctl : s.Control) (ok : s.EpochsOk) {p : Party} {run : GroupRun}
    {written : Except String Unit} (pc : s.pcs p = .answering run written run.planned.length) :
    (s.publishGroup p run written).EpochsOk := by
  have leads : (s.pcs p).leads = true := by rw [pc]; rfl
  have inv := ok.runs p
  rw [pc] at inv
  cases written with
  | error message => exact ok.frame rfl rfl rfl rfl (by rw [pc]; rfl) trivial
  | ok u =>
      obtain ⟨numbered, old, split, below⟩ := inv
      rw [List.take_length] at split
      rcases List.eq_nil_or_concat run.planned with none_ | ⟨before, m, shape⟩
      · simp only [publishGroup, none_, List.getLast?_nil]
        refine EpochsOk.ofLeader ctl leads rfl trivial (fun _ h mem => ?_) ok.sorted ok.published
        have whole : s.history = old := by simpa [none_] using split
        exact below h (whole ▸ mem)
      · rw [List.concat_eq_append] at shape
        have last : run.planned.getLast? = some m := by simp [shape]
        have ahead := numbered.above (m := m) (by simp [shape])
        simp only [publishGroup, last]
        refine EpochsOk.ofLeader ctl leads rfl trivial (fun _ h mem => ?_) ok.sorted ⟨?_, ?_⟩
        · have known : h ∈ s.history := mem
          rw [split] at known
          rcases List.mem_append.mp known with early | same
          · exact (below h early).trans ahead.le
          · obtain ⟨m', inside, rfl⟩ := List.mem_map.mp same
            have sorted := numbered.ascending
            rw [shape] at sorted inside
            rcases List.mem_append.mp inside with first | eq
            · exact ((List.pairwise_append.mp sorted).2.2 m' first m
                (List.mem_singleton_self m)).le
            · rw [List.mem_singleton.mp eq]
        · refine List.pairwise_append.mpr ⟨ok.published.1, List.pairwise_singleton _ _, ?_⟩
          intro a ha b hb
          obtain rfl := List.mem_singleton.mp hb
          exact lt_of_le_of_lt (ok.published.2 a ha) ahead
        · intro e he
          rcases List.mem_append.mp he with early | new
          · exact (ok.published.2 e early).trans ahead.le
          · exact le_of_eq (List.mem_singleton.mp new)

theorem epochsOk_swap {s : Sys} (ctl : s.Control) (ok : s.EpochsOk) {job : MergeJob}
    {remap : SuffixRemap} {outcome : Swap} (pc : s.pcs .merge = .swapping job) :
    (s.swapped job remap outcome).EpochsOk := by
  have leads : (s.pcs .merge).leads = true := by rw [pc]; rfl
  cases outcome with
  | aborted => exact ok.frame rfl rfl rfl rfl (by rw [pc]; rfl) trivial
  | activationFailed at_ =>
      simp only [swapped]
      split <;> exact ok.frame rfl rfl rfl rfl (by rw [pc]; rfl) trivial
  | published =>
      have quiet := ok.quiet (ctl.not_recording leads (by rw [pc]; rfl))
      exact EpochsOk.ofLeader ctl leads rfl trivial (fun _ => quiet) ok.sorted ok.published

theorem epochsOk_move [InlineCodec] {txs : Nat → Tx} {s s' : Sys} {a : Action} (ctl : s.Control)
    (ok : s.EpochsOk) (move : Move txs s a s') : s'.EpochsOk := by
  cases move with
  | enter pc | pass pc | enterPoisoned pc _ | refuse pc | enqueue pc _ | elect pc _ _ | wake pc _
  | collect pc | release pc _ | releaseMerge pc _ | take pc _ | mergeFail pc | await pc _
  | acquire pc _ | seize pc _ | mergeStart pc | mergeNotLogged pc | mergeWork pc _ =>
      exact ok.frame rfl rfl rfl rfl (by rw [pc]; rfl) trivial
  | start pc =>
      exact ok.frame rfl rfl rfl rfl (by rw [pc]; rfl) ⟨⟨rfl, rfl⟩, rfl, rfl⟩
  | plan pc todo => exact epochsOk_plan ok pc _ _
  | @write p run pc todo =>
      have leads : (s.pcs p).leads = true := by rw [pc]; rfl
      have quiet := ok.quiet (ctl.not_recording leads (by rw [pc]; rfl))
      have inv := ok.runs p
      rw [pc] at inv
      obtain ⟨current, -, history, published⟩ := append_same s run.plan.frames
      generalize hb : s.append run.plan.frames = base at current history published
      have pcs : base.pcs = s.pcs := by rw [← hb]; exact (append_frame s _).2
      refine EpochsOk.ofLeader ctl leads (congrArg (fun f => Function.update f p _) pcs)
        ?_ (by simp [Pc.records]) ?_ ?_
      · change RunEpochs base.current base.history _
        rw [current, history]
        exact ⟨inv.1, s.history, by simp, quiet⟩
      · change base.history.Pairwise _
        rw [history]
        exact ok.sorted
      · change base.published.Pairwise _ ∧ ∀ e ∈ base.published, e ≤ base.current.epoch
        rw [published, current]
        exact ok.published
  | @writeFailed p run message pc todo =>
      have inv := ok.runs p
      rw [pc] at inv
      exact ok.frame rfl rfl rfl rfl (by rw [pc]; rfl) inv.1.start
  | answer pc get => exact epochsOk_answer ctl ok pc get
  | publish pc => exact epochsOk_publish ctl ok pc
  | @mergeLog freeze pc =>
      obtain ⟨current, -, history, published⟩ := append_same s [.mergeStart freeze.epoch]
      have pcs := (append_frame s [.mergeStart freeze.epoch]).2
      exact ok.frame (p := .merge) (x := .merging (.logged freeze))
        (congrArg (fun f => Function.update f _ _) pcs) current history published
        (by rw [pc]; rfl) trivial
  | swap pc carried => exact epochsOk_swap ctl ok pc
  | configure => exact ⟨ok.1, ok.2, ok.3, ok.4⟩

theorem epochsOk_init (snap : Snapshot) (hard : Nat) (merger : Bool) (log : List WalRecord) :
    (init snap hard merger log).EpochsOk where
  runs := fun _ => trivial
  quiet := by simp [init]
  sorted := List.Pairwise.nil
  published := ⟨List.Pairwise.nil, by simp [init]⟩

end Sys

end Graphy
