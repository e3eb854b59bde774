import Graphy.Store.Proofs.Open
import Graphy.Store.Proofs.SystemAnswers

/-!
# Visibility of acknowledged commits

A leader fills the slots of its followers before it publishes its group.  A follower that
takes its slot in between has returned with an epoch that no snapshot call sees yet; as long
as none does, every snapshot call sees all returned commits.
-/

namespace Graphy

namespace Sys

/-- A snapshot call made now sees every commit whose call has returned. -/
def AcknowledgedVisible (s : Sys) : Prop :=
  ∀ c r, s.pcs (.call c) = .returned (.ok r) → r.epoch ≤ s.current.epoch

/-- A call takes the slot that a leader has filled with a new epoch, before the leader
publishes its group. -/
def WakesEarly (s : Sys) : Action → Prop
  | .wake c => ∃ p run u n, s.pcs p = .answering run (.ok u) n ∧
      ∃ m ∈ run.planned.take n, m.call = c
  | _ => False

/-- A call that a leader of an unpublished group has answered is in the history above the
published epoch. -/
theorem EpochsOk.mem_history {s : Sys} (epochs : s.EpochsOk) {p : Party} {run : GroupRun} {u : Unit}
    {n : Nat} (pc : s.pcs p = .answering run (.ok u) n) {m : GroupTx}
    (mem : m ∈ run.planned.take n) :
    (m.call, m.tx.epoch) ∈ s.history ∧ s.current.epoch < m.tx.epoch := by
  have inv := epochs.runs p
  rw [pc] at inv
  obtain ⟨numbered, old, split, -⟩ := inv
  refine ⟨?_, numbered.above (List.mem_of_mem_take mem)⟩
  rw [split]
  exact List.mem_append_right _ (List.mem_map_of_mem mem)

/-- An answer in the history is published, or its group is being answered. -/
theorem EpochsOk.le_or_answering {s : Sys} (epochs : s.EpochsOk) {c e : Nat}
    (mem : (c, e) ∈ s.history) : e ≤ s.current.epoch ∨
      ∃ p run u n, s.pcs p = .answering run (.ok u) n ∧ ∃ m ∈ run.planned.take n, m.call = c := by
  by_cases quiet : ∀ p, (s.pcs p).records = false
  · exact Or.inl (epochs.quiet quiet _ mem)
  · obtain ⟨p, records⟩ := not_forall.mp quiet
    have inv := epochs.runs p
    cases pc : s.pcs p with
    | answering run written n =>
        cases written with
        | error message => simp [pc, Pc.records] at records
        | ok u =>
            rw [pc] at inv
            obtain ⟨-, old, split, below⟩ := inv
            rw [split] at mem
            rcases List.mem_append.mp mem with before | here
            · exact Or.inl (below _ before)
            · obtain ⟨m, hm, eq⟩ := List.mem_map.mp here
              exact Or.inr ⟨p, run, u, n, pc, m, hm, congrArg Prod.fst eq⟩
    | idle | checked | admitted | waiting | elected | collected | planning | draining | returned
    | merging | acquiring | swapping => simp [pc, Pc.records] at records

/-- The answer in a filled slot is the only one the call was given. -/
theorem CallOk.filled {s : Sys} {c : Nat} (ok : s.CallOk c) {a : Answer}
    (pc : s.pcs (.call c) = .waiting) (slot : s.slots c = some a) :
    ∃ g, s.answers c = [g] ∧ g.answer = a := by
  simp only [CallOk, pc, Pc.shape, Status, slot] at ok
  rcases ok with ⟨-, empty, -⟩ | ⟨-, empty, -⟩ | ⟨g, one, filled, -⟩
  · cases empty
  · cases empty
  · exact ⟨g, one, (Option.some.inj filled).symm⟩

/-- An answer of the leader's own, when it drains. -/
theorem CallOk.drained {s : Sys} {c : Nat} (ok : s.CallOk c) {a : Answer}
    (pc : s.pcs (.call c) = .draining (some a)) : ∃ g, s.answers c = [g] ∧ g.answer = a := by
  have nobody : s.heldCount c (.call c) = 0 := by simp [heldCount, pc, Pc.held]
  simp only [CallOk, pc, Pc.shape, Status, nobody] at ok
  rcases ok.2.2.2 with ⟨-, -, h⟩ | ⟨g, one, own, -⟩
  · omega
  · exact ⟨g, one, (Option.some.inj own).symm⟩

section Steps

variable [InlineCodec] {txs : Nat → Tx}

/-- What a step does to the call that returns in it. -/
theorem returned_of_move {s s' : Sys} {a : Action} (move : Move txs s a s') {c : Nat}
    {answer : Answer} (after : s'.pcs (.call c) = .returned answer) :
    s.pcs (.call c) = .returned answer ∨ (∃ e, answer = .error e) ∨
      (a = .wake c ∧ s.pcs (.call c) = .waiting ∧ s.slots c = some answer) ∨
      s.pcs (.call c) = .draining (some answer) := by
  -- a step of another party leaves the call where it is
  have other {p : Party} {x : Pc} (pcs : s'.pcs = Function.update s.pcs p x)
      (no : ∀ b, x ≠ .returned b) : s.pcs (.call c) = .returned answer := by
    rw [pcs] at after
    by_cases eq : Party.call c = p
    · rw [eq, Function.update_self] at after
      exact absurd after (no answer)
    · rwa [Function.update_of_ne eq] at after
  have same {d : Nat} {b : Answer} (pcs : s'.pcs = Function.update s.pcs (.call d) (.returned b)) :
      s.pcs (.call c) = .returned answer ∨ c = d ∧ b = answer := by
    rw [pcs] at after
    by_cases eq : c = d
    · rw [eq, Function.update_self, Pc.returned.injEq] at after
      exact Or.inr ⟨eq, after⟩
    · rw [Function.update_of_ne (by simpa using eq)] at after
      exact Or.inl after
  cases move with
  | enterPoisoned pc _ | refuse pc =>
      exact (same rfl).imp id fun h => Or.inl ⟨_, h.2.symm⟩
  | @wake d b pc slot =>
      rcases same rfl with before | ⟨rfl, rfl⟩
      · exact Or.inl before
      · exact Or.inr (Or.inr (Or.inl ⟨rfl, pc, slot⟩))
  | @release d b pc done =>
      rcases same rfl with before | ⟨rfl, rfl⟩
      · exact Or.inl before
      · exact Or.inr (Or.inr (Or.inr pc))
  | @plan p run d rest pc todo =>
      obtain ⟨-, run', pcs, -⟩ := planNext_frame txs s p run d rest
      exact Or.inl (other pcs (by simp))
  | @answer p run written n m pc get =>
      obtain ⟨-, run', pcs, -⟩ := answerNext_frame s p run written n m
      exact Or.inl (other pcs (by simp))
  | @publish p run written pc => exact Or.inl (other (publishGroup_frame s p run written).2 (by simp))
  | @write p run pc todo =>
      exact Or.inl (other (congrArg (fun f => Function.update f p _) (append_frame s _).2) (by simp))
  | @mergeLog freeze pc =>
      exact Or.inl (other (congrArg (fun f => Function.update f _ _) (append_frame s _).2) (by simp))
  | @swap job remap outcome pc carried =>
      exact Or.inl (other (swapped_frame s job remap outcome).2 (by simp))
  | configure => exact Or.inl after
  | enter | pass | enqueue | elect | collect | start | writeFailed | releaseMerge | take
  | mergeStart | mergeNotLogged | mergeWork | mergeFail | await | acquire | seize =>
      exact Or.inl (other rfl (by simp))

/-- A step keeps the visibility of returned commits, unless it is an early wake. -/
theorem Ok.visible_step {s s' : Sys} (ok : s.Ok) (visible : s.AcknowledgedVisible) {a : Action}
    (move : Move txs s a s') (calm : ¬ s.WakesEarly a) : s'.AcknowledgedVisible := by
  intro c r after
  refine le_trans ?_ (epoch_le_of_move ok.epochs move)
  -- the epoch of the only answer the call has
  have given {g : Given} (one : s.answers c = [g]) (eq : g.answer = .ok r) :
      r.epoch ≤ s.current.epoch ∨ (c, r.epoch) ∈ s.history :=
    (ok.answers.given c g (by simp [one]) r eq).symm.imp And.right And.right
  rcases returned_of_move move after with before | ⟨e, error⟩ | ⟨rfl, pc, slot⟩ | pc
  · exact visible c r before
  · cases error
  · obtain ⟨g, one, eq⟩ := (ok.calls c).filled pc slot
    rcases given one eq with le | mem
    · exact le
    · exact (ok.epochs.le_or_answering mem).resolve_right calm
  · obtain ⟨g, one, eq⟩ := (ok.calls c).drained pc
    rcases given one eq with le | mem
    · exact le
    · have leads : (s.pcs (.call c)).leads = true := by rw [pc]; rfl
      exact ok.epochs.quiet (ok.control.not_recording leads (by rw [pc]; rfl)) _ mem

/-- After an early wake a commit has returned that no snapshot call sees. -/
theorem Ok.not_visible_of_wakesEarly {s s' : Sys} (ok : s.Ok) {a : Action} (move : Move txs s a s')
    (early : s.WakesEarly a) : ¬ s'.AcknowledgedVisible := by
  intro visible
  cases move with
  | @wake c answer pc slot =>
      obtain ⟨p, run, u, n, answering, m, hm, rfl⟩ := early
      obtain ⟨mem, above⟩ := ok.epochs.mem_history answering hm
      obtain ⟨g, hg, r, eq, epoch, -⟩ := ok.answers.recorded _ mem
      obtain ⟨g', one, same⟩ := (ok.calls m.call).filled pc slot
      simp only at hg epoch
      rw [one] at hg
      obtain rfl := List.mem_singleton.mp hg
      have seen := visible m.call r (by simp [setPc, ← same, eq])
      simp only [setPc] at seen
      omega
  | _ => exact early

/-- A step that is no early wake. -/
def CalmStep (txs : Nat → Tx) (s s' : Sys) : Prop :=
  ∃ a, s.next txs a = some s' ∧ ¬ s.WakesEarly a

theorem CalmStep.step {s s' : Sys} (h : CalmStep txs s s') : Step txs s s' :=
  h.elim fun a h => ⟨a, h.1⟩

/-- In every run without early wakes a snapshot call sees all returned commits, and the next
step keeps it so exactly when it is no early wake; the epochs of successive snapshot calls
never decrease, whatever the steps. -/
theorem acknowledgedVisible_iff {snap : Snapshot} {hard : Nat} {merger : Bool}
    {log : List WalRecord} {s : Sys}
    (run : Relation.ReflTransGen (CalmStep txs) (init snap hard merger log) s) :
    s.AcknowledgedVisible ∧
      (∀ a s', s.next txs a = some s' → (s'.AcknowledgedVisible ↔ ¬ s.WakesEarly a)) ∧
      ∀ s', Relation.ReflTransGen (Step txs) s s' → s.current.epoch ≤ s'.current.epoch := by
  have all : s.Ok ∧ s.AcknowledgedVisible := by
    induction run with
    | refl => exact ⟨ok_init snap hard merger log, by intro c r h; cases h⟩
    | tail _ step ih =>
        obtain ⟨a, h, calm⟩ := step
        exact ⟨ih.1.step ⟨a, h⟩, ih.1.visible_step ih.2 (next_move h) calm⟩
  obtain ⟨ok, visible⟩ := all
  refine ⟨visible, fun a s' h => ⟨?_, ok.visible_step visible (next_move h)⟩, fun _ => ok.epoch_mono⟩
  exact fun after early => ok.not_visible_of_wakesEarly (next_move h) early after

end Steps

section Concrete

attribute [local instance] plainCodec

/-- Two calls that add one quad each. -/
def twoAdds (c : Nat) : Tx where
  dels := []
  adds := [.ofLetters 1 2 (if c = 0 then 3 else 4)]
  durability := .strict

/-- Call 0 leads a group of both calls and has answered both. -/
def groupAnswered : List Action :=
  [.enter 0, .pass 0, .request 0, .enter 1, .pass 1, .request 1, .collect 0, .start (.call 0),
    .plan (.call 0), .plan (.call 0), .write (.call 0) (.ok ()), .answer (.call 0),
    .answer (.call 0)]

/-- The store of the runs below. -/
def ephemeralSys : Sys := init Snapshot.ephemeral 10 false []

/-- Whether the action takes a slot. -/
def isWake : Action → Bool
  | .wake _ => true
  | _ => false

theorem calmSteps_of_run {txs : Nat → Tx} {actions : List Action} {s s' : Sys}
    (noWake : actions.all (fun a => !isWake a) = true) (h : Sys.run txs actions s = some s') :
    Relation.ReflTransGen (CalmStep txs) s s' := by
  induction actions generalizing s with
  | nil =>
      cases h
      exact .refl
  | cons a rest ih =>
      rw [List.all_cons, Bool.and_eq_true] at noWake
      obtain ⟨mid, step, run⟩ := Option.bind_eq_some_iff.mp h
      refine .head ⟨a, step, fun early => ?_⟩ (ih noWake.2 run)
      cases a with
      | wake c => simp [isWake] at noWake
      | _ => exact early

theorem acknowledgedVisible_iff_two_adds : ∃ s, Sys.run twoAdds groupAnswered ephemeralSys = some s ∧
    s.AcknowledgedVisible ∧
      (∀ a s', s.next twoAdds a = some s' → (s'.AcknowledgedVisible ↔ ¬ s.WakesEarly a)) ∧
      ∀ s', Relation.ReflTransGen (Step twoAdds) s s' → s.current.epoch ≤ s'.current.epoch := by
  have runs : (Sys.run twoAdds groupAnswered ephemeralSys).isSome = true := by decide +kernel
  obtain ⟨s, run⟩ := Option.isSome_iff_exists.mp runs
  exact ⟨s, run, acknowledgedVisible_iff (calmSteps_of_run (by decide) run)⟩

/-- Epoch of the snapshot a call returned. -/
def returnedEpoch : Pc → Option Nat
  | .returned (.ok r) => some r.epoch
  | _ => none

theorem returned_of_epoch {pc : Pc} {e : Nat} (h : returnedEpoch pc = some e) :
    ∃ r, pc = .returned (.ok r) ∧ r.epoch = e := by
  cases pc with
  | returned a =>
      cases a with
      | ok r => exact ⟨r, rfl, Option.some.inj h⟩
      | error e => cases h
  | idle | checked | admitted | waiting | elected | collected | planning | answering | draining
  | merging | acquiring | swapping => cases h

theorem reachable_of_run {txs : Nat → Tx} {actions : List Action} {s : Sys}
    (h : Sys.run txs actions ephemeralSys = some s) :
    Reachable txs Snapshot.ephemeral s :=
  ⟨10, false, [], steps_of_run h⟩

/-- The follower takes its slot at once: it has returned with epoch 2 while a snapshot call
still sees epoch 0. -/
theorem not_acknowledgedVisible_follower : ∃ s, Reachable twoAdds Snapshot.ephemeral s ∧
    ∃ c r, s.pcs (.call c) = .returned (.ok r) ∧ s.current.epoch < r.epoch := by
  have runs : (Sys.run twoAdds (groupAnswered ++ [.wake 1]) ephemeralSys).map
      (fun s => (returnedEpoch (s.pcs (.call 1)), s.current.epoch)) = some (some 2, 0) := by
    decide +kernel
  obtain ⟨s, run, epochs⟩ := Option.map_eq_some_iff.mp runs
  obtain ⟨returned, current⟩ := Prod.mk.inj epochs
  obtain ⟨r, pc, epoch⟩ := returned_of_epoch returned
  exact ⟨s, reachable_of_run run, 1, r, pc, by omega⟩

end Concrete

end Sys

end Graphy
