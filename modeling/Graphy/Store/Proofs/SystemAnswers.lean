import Graphy.Store.Proofs.SystemEpochs

/-!
# Answers of a running system

A call is answered with an epoch of its own exactly when it is in the history.  With the
places of transactions this gives progress: when no party can go on, every call is back.
-/

namespace Graphy

namespace Sys

/-- An answered snapshot has a new epoch exactly when its call is in the history. -/
structure AnswersOk (s : Sys) : Prop where
  given : ∀ c, ∀ g ∈ s.answers c, ∀ r, g.answer = .ok r →
    (g.published < r.epoch ∧ (c, r.epoch) ∈ s.history) ∨
      (r.epoch ≤ g.published ∧ r.epoch ≤ s.current.epoch)
  recorded : ∀ h ∈ s.history, ∃ g ∈ s.answers h.1, ∃ r, g.answer = .ok r ∧ r.epoch = h.2 ∧
    g.published < h.2

theorem AnswersOk.frame {s s' : Sys} (ok : s.AnswersOk) (answers : s'.answers = s.answers)
    (history : s'.history = s.history) (epoch : s.current.epoch ≤ s'.current.epoch) :
    s'.AnswersOk where
  given := by
    intro c g hg r eq
    rw [answers] at hg
    rw [history]
    exact (ok.given c g hg r eq).imp id fun h => ⟨h.1, h.2.trans epoch⟩
  recorded := by rw [history, answers]; exact ok.recorded

/-- One more answer, with the history entry that goes with it. -/
theorem AnswersOk.answered {s s' : Sys} (ok : s.AnswersOk) {c : Nat} {a : Answer}
    {n : List (Nat × Nat)}
    (answers : s'.answers = Function.update s.answers c (s.answers c ++ [⟨a, s.current.epoch⟩]))
    (history : s'.history = s.history ++ n) (epoch : s'.current.epoch = s.current.epoch)
    (fits : ∀ r, a = .ok r → (s.current.epoch < r.epoch ∧ (c, r.epoch) ∈ n) ∨
      r.epoch ≤ s.current.epoch)
    (entry : ∀ h ∈ n, h.1 = c ∧ ∃ r, a = .ok r ∧ r.epoch = h.2 ∧ s.current.epoch < h.2) :
    s'.AnswersOk where
  given := by
    intro d g hg r eq
    rw [history, epoch]
    have old (h : g ∈ s.answers d) : (g.published < r.epoch ∧ (d, r.epoch) ∈ s.history ++ n) ∨
        (r.epoch ≤ g.published ∧ r.epoch ≤ s.current.epoch) :=
      (ok.given d g h r eq).imp (fun h => ⟨h.1, List.mem_append_left _ h.2⟩) id
    rw [answers] at hg
    by_cases same : d = c
    · subst same
      rw [Function.update_self] at hg
      rcases List.mem_append.mp hg with before | last
      · exact old before
      · obtain rfl := List.mem_singleton.mp last
        rcases fits r eq with ⟨later, mem⟩ | le
        · exact Or.inl ⟨later, List.mem_append_right _ mem⟩
        · exact Or.inr ⟨le, le⟩
    · rw [Function.update_of_ne same] at hg
      exact old hg
  recorded := by
    intro h hh
    rw [answers]
    rw [history] at hh
    rcases List.mem_append.mp hh with before | last
    · obtain ⟨g, hg, rest⟩ := ok.recorded h before
      refine ⟨g, ?_, rest⟩
      by_cases same : h.1 = c
      · rw [same, Function.update_self]
        exact List.mem_append_left _ (same ▸ hg)
      · rwa [Function.update_of_ne same]
    · obtain ⟨same, r, eq, epoch, later⟩ := entry h last
      refine ⟨⟨a, s.current.epoch⟩, ?_, r, eq, epoch, later⟩
      rw [same, Function.update_self]
      exact List.mem_append_right _ (List.mem_singleton_self _)

theorem deliver_answers (s : Sys) (run : GroupRun) (c : Nat) (a : Answer) :
    (s.deliver run c a).1.answers =
      Function.update s.answers c (s.answers c ++ [⟨a, s.current.epoch⟩]) := by
  simp only [deliver]
  split <;> rfl

theorem answersOk_plan [InlineCodec] {txs : Nat → Tx} {s : Sys} (epochs : s.EpochsOk)
    (ok : s.AnswersOk) {p : Party} {run : GroupRun} (pc : s.pcs p = .planning run) (c : Nat)
    (rest : List Nat) : (s.planNext txs p run c rest).AnswersOk := by
  have inv := epochs.runs p
  rw [pc] at inv
  have start := inv.1.start
  simp only [planNext]
  cases (planOne s.merger (s.deref run.start) run.plan (txs c)).2.2 with
  | planned tx => exact ok.frame rfl rfl (le_refl _)
  | unchanged =>
      obtain ⟨-, -, -, -, current, -, history, -⟩ := deliver_frame _ _ _ _
      refine ok.answered (n := []) (deliver_answers _ _ _ _)
        (history.trans (List.append_nil s.history).symm) (congrArg SnapRef.epoch current) ?_ (by simp)
      intro r eq
      right
      have seen : (if run.mine = some c then run.start else s.current) = s.current := by
        rw [start]
        exact ite_self _
      exact le_of_eq (congrArg SnapRef.epoch ((Except.ok.inj eq).symm.trans seen))
  | failed e =>
      obtain ⟨-, -, -, -, current, -, history, -⟩ := deliver_frame _ _ _ _
      exact ok.answered (n := []) (deliver_answers _ _ _ _)
        (history.trans (List.append_nil s.history).symm) (congrArg SnapRef.epoch current) (by simp)
        (by simp)

theorem answersOk_answer {s : Sys} (epochs : s.EpochsOk) (ok : s.AnswersOk) {p : Party}
    {run : GroupRun} {written : Except String Unit} {next : Nat} {m : GroupTx}
    (pc : s.pcs p = .answering run written next) (get : run.planned[next]? = some m) :
    (s.answerNext p run written next m).AnswersOk := by
  have inv := epochs.runs p
  rw [pc] at inv
  cases written with
  | error message =>
      obtain ⟨-, -, -, -, current, -, history, -⟩ :=
        deliver_frame s run m.call (.error (.corrupt message))
      exact ok.answered (n := []) (deliver_answers s run m.call _)
        (history.trans (List.append_nil s.history).symm) (congrArg SnapRef.epoch current) (by simp)
        (by simp)
  | ok u =>
      have ahead := inv.1.above (List.mem_of_getElem? get)
      obtain ⟨-, -, -, -, current, -, history, -⟩ := deliver_frame (s.setDelta run.start.arc
        ((s.deref run.start).record m.tx).delta) run m.call (.ok { run.start with epoch := m.tx.epoch })
      refine ok.answered (n := [(m.call, m.tx.epoch)]) (deliver_answers _ run m.call _)
        (congrArg (· ++ _) history) (congrArg SnapRef.epoch current) ?_ ?_
      · rintro r eq
        cases eq
        exact Or.inl ⟨ahead, List.mem_singleton_self _⟩
      · rintro h hh
        obtain rfl := List.mem_singleton.mp hh
        exact ⟨rfl, _, rfl, rfl, ahead⟩

/-- Publishing never goes back. -/
theorem epoch_le_of_move [InlineCodec] {txs : Nat → Tx} {s s' : Sys} {a : Action}
    (epochs : s.EpochsOk) (move : Move txs s a s') : s.current.epoch ≤ s'.current.epoch := by
  cases move with
  | @write p run pc todo =>
      exact le_of_eq (congrArg SnapRef.epoch (append_same s run.plan.frames).1).symm
  | @plan p run c rest pc todo =>
      exact le_of_eq (congrArg SnapRef.epoch (planNext_current txs s p run c rest)).symm
  | @answer p run written n m pc get =>
      exact le_of_eq (congrArg SnapRef.epoch (answerNext_current s p run written n m)).symm
  | @publish p run written pc =>
      have inv := epochs.runs p
      rw [pc] at inv
      simp only [publishGroup]
      split
      · rename_i m last
        exact (inv.1.above (List.mem_of_getLast? last)).le
      · exact le_refl _
  | @mergeLog freeze pc =>
      exact le_of_eq (congrArg SnapRef.epoch (append_same s [.mergeStart freeze.epoch]).1).symm
  | @swap job remap outcome pc carried =>
      cases outcome with
      | aborted | published => exact le_refl _
      | activationFailed at_ =>
          simp only [swapped]
          split <;> exact le_refl _
  | enter | pass | enqueue | elect | wake | collect | start | writeFailed | release | releaseMerge
  | take | mergeFail | await | acquire | seize | configure | enterPoisoned | refuse | mergeStart
  | mergeNotLogged | mergeWork => exact le_refl _

theorem answersOk_move [InlineCodec] {txs : Nat → Tx} {s s' : Sys} {a : Action}
    (epochs : s.EpochsOk) (ok : s.AnswersOk) (move : Move txs s a s') : s'.AnswersOk := by
  have later := epoch_le_of_move epochs move
  cases move with
  | enter pc | pass pc | enqueue pc _ | elect pc _ _ | wake pc _ | collect pc | start pc
  | writeFailed pc _ | release pc _ | releaseMerge pc _ | take pc _ | mergeFail pc | await pc _
  | acquire pc _ | seize pc _ | configure | mergeStart | mergeNotLogged | mergeWork =>
      exact ok.frame rfl rfl later
  | enterPoisoned pc _ | refuse pc =>
      exact ok.answered (n := []) rfl (by simp [note, setPc]) rfl (by simp) (by simp)
  | plan pc todo => exact answersOk_plan epochs ok pc _ _
  | @write p run pc todo =>
      refine ok.frame ?_ (append_same s run.plan.frames).2.2.1 later
      simp only [append, setPc]
      split <;> rfl
  | answer pc get => exact answersOk_answer epochs ok pc get
  | @publish p run written pc =>
      refine ok.frame ?_ ?_ later
      · simp only [publishGroup]
        split <;> rfl
      · simp only [publishGroup]
        split <;> rfl
  | @mergeLog freeze pc =>
      refine ok.frame ?_ (append_same s [.mergeStart freeze.epoch]).2.2.1 later
      simp only [append, setPc]
      split <;> rfl
  | @swap job remap outcome pc carried =>
      cases outcome with
      | aborted | published => exact ok.frame rfl rfl later
      | activationFailed at_ =>
          refine ok.frame ?_ ?_ later
          · simp only [swapped]
            split <;> rfl
          · simp only [swapped]
            split <;> rfl

/-! ## All invariants -/

/-- The invariants that ask nothing of the data. -/
structure Ok (s : Sys) : Prop where
  control : s.Control
  calls : ∀ c, s.CallOk c
  epochs : s.EpochsOk
  answers : s.AnswersOk

theorem Ok.step [InlineCodec] {txs : Nat → Tx} {s s' : Sys} (ok : s.Ok) (step : Step txs s s') :
    s'.Ok := by
  obtain ⟨a, h⟩ := step
  have move := next_move h
  exact ⟨ok.control.move move, callOk_move ok.control ok.calls move,
    epochsOk_move ok.control ok.epochs move, answersOk_move ok.epochs ok.answers move⟩

theorem Ok.steps [InlineCodec] {txs : Nat → Tx} {s s' : Sys} (ok : s.Ok)
    (steps : Relation.ReflTransGen (Step txs) s s') : s'.Ok := by
  induction steps with
  | refl => exact ok
  | tail _ step ih => exact ih.step step

theorem ok_init (snap : Snapshot) (hard : Nat) (merger : Bool) (log : List WalRecord) :
    (init snap hard merger log).Ok where
  control := control_init snap hard merger log
  calls := callOk_init snap hard merger log
  epochs := epochsOk_init snap hard merger log
  answers := ⟨by simp [init], by simp [init]⟩

theorem Reachable.ok [InlineCodec] {txs : Nat → Tx} {snap : Snapshot} {s : Sys}
    (h : Reachable txs snap s) : s.Ok := by
  obtain ⟨hard, merger, log, steps⟩ := h
  exact (ok_init snap hard merger log).steps steps

theorem Ok.epoch_mono [InlineCodec] {txs : Nat → Tx} {s s' : Sys} (ok : s.Ok)
    (steps : Relation.ReflTransGen (Step txs) s s') : s.current.epoch ≤ s'.current.epoch := by
  induction steps with
  | refl => exact le_refl _
  | tail before step ih =>
      obtain ⟨a, h⟩ := step
      exact ih.trans (epoch_le_of_move (ok.steps before).epochs (next_move h))

/-! ## Progress -/

/-- Steps of parties under way, as against new calls, new merges and configuration. -/
def Continues : Action → Bool
  | .enter _ | .mergeStart | .configure .. => false
  | _ => true

/-- No party under way can take a step. -/
def Quiescent [InlineCodec] (txs : Nat → Tx) (s : Sys) : Prop :=
  ∀ a, Continues a = true → s.next txs a = none

theorem Pc.leads_of_held {p : Party} {pc : Pc} {c : Nat} (h : (pc.held p).count c ≠ 0) :
    pc.leads = true := by
  cases pc <;> first | rfl | exact absurd rfl h

/-- A leader can always take a step. -/
theorem Ok.leader_continues [InlineCodec] {txs : Nat → Tx} {s : Sys} (ok : s.Ok) {p : Party}
    (leads : (s.pcs p).leads = true) : ¬ Quiescent txs s := by
  intro stuck
  cases pc : s.pcs p with
  | elected =>
      cases p with
      | call c =>
          have := stuck (.collect c) rfl
          simp [next, pc] at this
      | merge =>
          have := ok.control.merge
          simp [pc, Pc.ofCall] at this
  | collected mine own group =>
      have := stuck (.start p) rfl
      simp [next, pc] at this
  | planning run =>
      cases todo : run.todo with
      | nil =>
          have := stuck (.write p (.ok ())) rfl
          simp [next, pc, todo] at this
      | cons c rest =>
          have := stuck (.plan p) rfl
          simp [next, pc, todo] at this
  | answering run written n =>
      by_cases last : n = run.planned.length
      · have := stuck (.publish p) rfl
        simp [next, pc, last] at this
      · have bound : n < run.planned.length :=
          lt_of_le_of_ne (ok.control.next_le p run written n pc) last
        have := stuck (.answer p) rfl
        simp [next, pc, List.getElem?_eq_getElem bound] at this
  | draining own =>
      have := stuck (.drain p) rfl
      simp only [next, pc] at this
      split at this
      · cases p with
        | call c =>
            -- the leader has its own answer by now
            have place := ok.calls c
            have nobody : s.heldCount c (.call c) = 0 := by simp [heldCount, pc, Pc.held]
            simp only [CallOk, pc, Pc.shape, Status, nobody] at place
            rcases place.2.2.2 with ⟨-, -, h⟩ | ⟨g, -, mine, -⟩
            · cases h
            · rw [Pc.own] at mine
              subst mine
              cases this
        | merge => cases this
      · cases this
  | swapping job =>
      cases p with
      | call c =>
          have := ok.control.call c
          simp [pc, Pc.ofMerge] at this
      | merge =>
          have := stuck (.swap .aborted) rfl
          simp [next, pc] at this
  | idle | checked | admitted | waiting | returned | merging | acquiring =>
      rw [pc] at leads
      cases leads

/-- When nobody can take a step, every call is back with its answer. -/
theorem Ok.quiescent [InlineCodec] {txs : Nat → Tx} {s : Sys} (ok : s.Ok)
    (stuck : Quiescent txs s) (c : Nat) :
    s.pcs (.call c) = .idle ∨ ∃ a, s.pcs (.call c) = .returned a := by
  have nobody (p : Party) : (s.pcs p).leads = false := by
    cases h : (s.pcs p).leads with
    | false => rfl
    | true => exact absurd stuck (ok.leader_continues h)
  have free : s.leader = false := by
    cases h : s.leader with
    | false => rfl
    | true =>
        obtain ⟨p, leads⟩ := ok.control.leader.mp h
        simp [nobody p] at leads
  have noSwap : s.swapWaiting = false := by
    cases h : s.swapWaiting with
    | false => rfl
    | true =>
        obtain ⟨job, waiting⟩ := ok.control.waiting.mp h
        have := stuck .seize rfl
        simp [next, waiting, free] at this
  have empty : s.pending = [] := by
    by_contra some_
    rcases ok.control.queue some_ with h | h
    · simp [free] at h
    · simp [noSwap] at h
  have none_ := nobody (.call c)
  cases pc : s.pcs (.call c) with
  | idle => exact Or.inl rfl
  | returned a => exact Or.inr ⟨a, rfl⟩
  | checked =>
      by_cases room : (s.deref s.current).delta.events < s.hard
      · have := stuck (.pass c) rfl
        simp [next, pc, room] at this
      · have := stuck (.refuse c) rfl
        simp [next, pc, Nat.not_lt.mp room] at this
  | admitted =>
      have := stuck (.request c) rfl
      simp [next, pc, free, noSwap] at this
  | waiting =>
      have place := ok.calls c
      simp only [CallOk, pc, Pc.shape, Status, empty, List.count_nil] at place
      rcases place with ⟨-, -, h, -⟩ | ⟨-, -, -, p, h, -⟩ | ⟨g, -, slot, -⟩
      · cases h
      · have leads : (s.pcs p).leads = true := Pc.leads_of_held (p := p) (c := c) (by
          rw [heldCount] at h
          omega)
        simp [nobody p] at leads
      · have := stuck (.wake c) rfl
        simp [next, pc, slot] at this
  | elected | collected | planning | answering | draining | swapping =>
      rw [pc] at none_
      cases none_
  | merging | acquiring =>
      have := ok.control.call c
      simp [pc, Pc.ofMerge] at this

/-- No call is answered twice. -/
theorem CallOk.answers_le {s : Sys} {c : Nat} (ok : s.CallOk c) : (s.answers c).length ≤ 1 := by
  rw [CallOk] at ok
  cases point : (s.pcs (.call c)).shape c with
  | outside =>
      rw [point] at ok
      simp [ok.1]
  | waiting =>
      rw [point] at ok
      rcases ok with ⟨none_, -⟩ | ⟨none_, -⟩ | ⟨g, one, -⟩
      · simp [none_]
      · simp [none_]
      · simp [one]
  | leading mine own =>
      rw [point] at ok
      rcases ok.2.2.2 with ⟨none_, -⟩ | ⟨g, one, -⟩
      · simp [none_]
      · simp [one]
  | returned a =>
      rw [point] at ok
      obtain ⟨g, one, -⟩ := ok
      simp [one]

theorem CallOk.returned {s : Sys} {c : Nat} (ok : s.CallOk c) {a : Answer}
    (pc : s.pcs (.call c) = .returned a) : ∃ g, s.answers c = [g] ∧ g.answer = a := by
  simp only [CallOk, pc, Pc.shape, Status] at ok
  obtain ⟨g, one, eq, -⟩ := ok
  exact ⟨g, one, eq⟩

end Sys

end Graphy
