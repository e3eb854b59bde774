import Graphy.Store.Proofs.Open

/-!
# What a group answers

Every answered snapshot of a planned transaction shows its effects.  A
transaction that changes nothing is answered with the snapshot the group started
from, which shows its effects only when it would change nothing there either.
-/

namespace Graphy

section Answers

variable [InlineCodec]

/-- An answered snapshot has the adds of the transaction, and none of the deletes it
does not add back. -/
def ShowsEffects (tx : Tx) (answer : Except StoreError Snapshot) : Prop :=
  ∀ snap, answer = .ok snap →
    (∀ q ∈ (tx.updateOn snap.base.dict).adds, q ∈ snap.dataset) ∧
      ∀ q ∈ (tx.updateOn snap.base.dict).dels,
        q ∉ (tx.updateOn snap.base.dict).adds → q ∉ snap.dataset

/-- The answers of a group: each caller reads its own writes, and after a failed log
write nobody whose transaction would have to write at the start snapshot is told
that it is done. -/
def ReadsItsWrites (start : Snapshot) (hard : Nat) (written : Except String Unit)
    (members : List Member) : Prop :=
  List.Forall₂ (fun m answer => ShowsEffects m.tx answer) members
      (runGroup start hard written members) ∧
    ∀ message, written = .error message →
      List.Forall₂ (fun m answer =>
          ¬ (m.tx.updateOn start.base.dict).Idle start.dataset → ∀ snap, answer ≠ .ok snap)
        members (runGroup start hard written members)

/-- No accepted transaction is idle only because of the transactions planned before
it: what changes nothing where it is planned changes nothing at the snapshot the group
started from. -/
def NoneRelies (start : Snapshot) : Snapshot → GroupPlan → List Member → Prop
  | _, _, [] => True
  | snap, plan, m :: ms =>
      ((plan.events < plan.hard ∨ m.merger = true) → TxValid m.tx.dels m.tx.adds →
          (m.tx.updateOn start.base.dict).Idle (snap.shows plan.carry) →
            (m.tx.updateOn start.base.dict).Idle start.dataset) ∧
        NoneRelies start (planOne m.merger snap plan m.tx).1 (planOne m.merger snap plan m.tx).2.1 ms

/-- An accepted transaction that changes nothing is answered at once. -/
theorem planOne_unchanged {start snap : Snapshot} {plan : GroupPlan} {ms : PlannedList}
    (inv : GroupInv start snap plan ms) {merger : Bool} {tx : Tx}
    (budget : plan.events < plan.hard ∨ merger = true) (valid : TxValid tx.dels tx.adds)
    (idle : (tx.updateOn start.base.dict).Idle (snap.shows plan.carry)) :
    (planOne merger snap plan tx).2.2 = .unchanged := by
  obtain ⟨st, core⟩ := commitCore_of_valid snap plan.carry valid
  have carried : plan.carry.Valid snap := by
    rw [inv.carry]
    exact inv.ready.carry_valid
  obtain ⟨-, spec⟩ := commitCore_spec inv.ready.sound.wf inv.ready.sound.accepted carried core
  have room : ¬ (plan.hard ≤ plan.events ∧ merger = false) := by
    rintro ⟨exceeded, none_⟩
    rcases budget with under | some_
    · omega
    · simp [none_] at some_
  have empty : st.entries = [] := spec.idle.mpr (by rw [inv.ext.base]; exact idle)
  simp [planOne, room, core, empty]

/-- What the outcomes of a group started on `start` say: `ms` are the transactions planned
so far. -/
def OutcomesSpec (start : Snapshot) :
    PlannedList → List Member → List (PlanOutcome × Snapshot) → Prop
  | _, [], [] => True
  | ms, m :: rest, (o, seen) :: outs =>
      OutcomeSpec start.base.dict m.tx (ms.applyTo start.dataset) o ∧
        (seen.base = start.base ∧ seen.dataset = start.dataset) ∧
        OutcomesSpec start (ms ++ o.planList (m.tx.updateOn start.base.dict)) rest outs
  | _, _, _ => False

/-- The transactions of a group that were planned. -/
def plannedOf (dict : Dictionary) : List Member → List (PlanOutcome × Snapshot) → PlannedList
  | m :: rest, (o, _) :: outs => o.planList (m.tx.updateOn dict) ++ plannedOf dict rest outs
  | _, _ => []

theorem planAll_spec {start snap : Snapshot} {plan : GroupPlan} {ms : PlannedList}
    (inv : GroupInv start snap plan ms) (members : List Member) :
    GroupInv start (planAll snap plan members).1 (planAll snap plan members).2.1
        (ms ++ plannedOf start.base.dict members (planAll snap plan members).2.2) ∧
      OutcomesSpec start ms members (planAll snap plan members).2.2 := by
  induction members generalizing snap plan ms with
  | nil => exact ⟨by simpa [planAll, plannedOf] using inv, trivial⟩
  | cons m rest ih =>
      obtain ⟨inv', -, outcome⟩ := planOne_spec inv m.merger m.tx
      obtain ⟨last, outs⟩ := ih inv'
      refine ⟨?_, outcome, ⟨inv'.ext.base, inv'.dataset⟩, outs⟩
      simpa only [planAll, plannedOf, List.append_assoc] using last

/-- No transaction of the group that changes nothing relies on another one. -/
def NoneIdleOnly (start : Snapshot) (members : List Member)
    (outs : List (PlanOutcome × Snapshot)) : Prop :=
  List.Forall₂
    (fun m o => o.1 = .unchanged → (m.tx.updateOn start.base.dict).Idle start.dataset) members outs

theorem noneRelies_iff {start snap : Snapshot} {plan : GroupPlan} {ms : PlannedList}
    (inv : GroupInv start snap plan ms) (members : List Member) :
    NoneRelies start snap plan members ↔
      NoneIdleOnly start members (planAll snap plan members).2.2 := by
  induction members generalizing snap plan ms with
  | nil => simp [NoneRelies, NoneIdleOnly, planAll]
  | cons m rest ih =>
      obtain ⟨inv', -, outcome⟩ := planOne_spec inv m.merger m.tx
      simp only [NoneRelies, NoneIdleOnly, planAll, List.forall₂_cons]
      refine and_congr ?_ (ih inv')
      constructor
      · intro idle unchanged
        rw [unchanged, OutcomeSpec, ← inv.shows] at outcome
        refine idle ?_ outcome.1 outcome.2
        by_contra exceeded
        rw [not_or, Nat.not_lt, Bool.not_eq_true] at exceeded
        simp [planOne, exceeded] at unchanged
      · intro idle budget valid here
        exact idle (planOne_unchanged inv budget valid here)

/-- An idle transaction reads its writes exactly where it is idle. -/
theorem showsEffects_unchanged {tx : Tx} {d : Set QuadTerms} {seen : Snapshot}
    (idle : (tx.updateOn seen.base.dict).Idle d) :
    ShowsEffects tx (.ok seen) ↔ (tx.updateOn seen.base.dict).Idle seen.dataset := by
  have apart : ∀ q ∈ (tx.updateOn seen.base.dict).dels, q ∉ (tx.updateOn seen.base.dict).adds :=
    fun q del add => idle.1 q del (idle.2 q add)
  constructor
  · intro shows
    obtain ⟨adds, dels⟩ := shows seen rfl
    exact ⟨fun q del => dels q del (apart q del), adds⟩
  · rintro ⟨dels, adds⟩ snap eq
    cases eq
    exact ⟨adds, fun q del _ => dels q del⟩

theorem showsEffects_error (tx : Tx) (e : StoreError) : ShowsEffects tx (.error e) := by
  intro snap eq
  cases eq

/-- A recorded transaction reads its writes. -/
theorem showsEffects_recorded {tx : Tx} {d : Set QuadTerms} {snap : Snapshot}
    (shown : snap.dataset = (tx.updateOn snap.base.dict).apply d) : ShowsEffects tx (.ok snap) := by
  intro snap' eq
  cases eq
  rw [shown]
  refine ⟨fun q add => Or.inr add, fun q del missing => ?_⟩
  rintro (⟨-, kept⟩ | add)
  · exact kept del
  · exact missing add

/-- After a failed write a member is answered truly exactly when it relies on no other
member, and is told it is done exactly when it is idle. -/
theorem answersFailed_iff {start : Snapshot} {ms : PlannedList} {members : List Member}
    {outs : List (PlanOutcome × Snapshot)} (spec : OutcomesSpec start ms members outs)
    (message : String) :
    (List.Forall₂ (fun m answer => ShowsEffects m.tx answer) members (answersFailed message outs) ↔
        NoneIdleOnly start members outs) ∧
      (NoneIdleOnly start members outs →
        List.Forall₂ (fun m answer =>
            ¬ (m.tx.updateOn start.base.dict).Idle start.dataset → ∀ snap, answer ≠ .ok snap)
          members (answersFailed message outs)) := by
  induction members generalizing ms outs with
  | nil =>
      cases outs with
      | nil => simp [NoneIdleOnly, answersFailed]
      | cons o outs => exact spec.elim
  | cons m rest ih =>
      cases outs with
      | nil => exact spec.elim
      | cons o outs =>
          obtain ⟨o, seen⟩ := o
          obtain ⟨outcome, ⟨sameBase, sameData⟩, tail⟩ := spec
          obtain ⟨shows, told⟩ := ih tail
          simp only [NoneIdleOnly, answersFailed, List.map_cons, List.forall₂_cons] at shows told ⊢
          cases o with
          | planned p =>
              simp only [showsEffects_error, true_and, reduceCtorEq, false_implies, shows]
              exact fun h => ⟨fun _ _ => by simp, told h⟩
          | failed e =>
              simp only [showsEffects_error, true_and, reduceCtorEq, false_implies, shows]
              exact fun h => ⟨fun _ _ => by simp, told h⟩
          | unchanged =>
              rw [OutcomeSpec, ← sameBase] at outcome
              simp only [showsEffects_unchanged outcome.2, sameBase, sameData, true_implies, shows]
              exact ⟨trivial, fun h => ⟨fun busy => absurd h.1 busy, told h.2⟩⟩

theorem answersWritten_iff {start : Snapshot} {ms : PlannedList} {members : List Member}
    {outs : List (PlanOutcome × Snapshot)} (spec : OutcomesSpec start ms members outs)
    {snap : Snapshot} (ready : Ready snap (plannedOf start.base.dict members outs))
    (base : snap.base = start.base) (left : snap.dataset = ms.applyTo start.dataset) :
    List.Forall₂ (fun m answer => ShowsEffects m.tx answer) members (answersWritten snap outs) ↔
      NoneIdleOnly start members outs := by
  induction members generalizing ms outs snap with
  | nil =>
      cases outs with
      | nil => simp [NoneIdleOnly, answersWritten]
      | cons o outs => exact spec.elim
  | cons m rest ih =>
      cases outs with
      | nil => exact spec.elim
      | cons o outs =>
          obtain ⟨o, seen⟩ := o
          obtain ⟨outcome, ⟨sameBase, sameData⟩, tail⟩ := spec
          cases o with
          | planned p =>
              obtain ⟨ready', shown, -⟩ :=
                Ready.record (m := (m.tx.updateOn start.base.dict, p)) ready
              have left' : (snap.record p).dataset =
                  (ms ++ [(m.tx.updateOn start.base.dict, p)]).applyTo start.dataset := by
                rw [shown, left, PlannedList.applyTo_concat]
              have rest := ih tail ready' base left'
              have shown' : (snap.record p).dataset =
                  (m.tx.updateOn (snap.record p).base.dict).apply snap.dataset := by
                rw [shown, ← base]
                rfl
              simp only [NoneIdleOnly, answersWritten, List.forall₂_cons,
                showsEffects_recorded shown', true_and, reduceCtorEq, false_implies] at rest ⊢
              exact rest
          | failed e =>
              have tail' : OutcomesSpec start ms rest outs := by
                simpa [PlanOutcome.planList] using tail
              have rest := ih tail' ready base left
              simp only [NoneIdleOnly, answersWritten, List.forall₂_cons, showsEffects_error,
                true_and, reduceCtorEq, false_implies] at rest ⊢
              exact rest
          | unchanged =>
              have tail' : OutcomesSpec start ms rest outs := by
                simpa [PlanOutcome.planList] using tail
              have rest := ih tail' ready base left
              rw [OutcomeSpec, ← sameBase] at outcome
              simp only [NoneIdleOnly, answersWritten, List.forall₂_cons,
                showsEffects_unchanged outcome.2, sameBase, sameData, true_implies] at rest ⊢
              rw [rest]

/-- The callers of a group read their own writes exactly when every transaction found
idle is idle at the dataset the group started from. -/
theorem readsItsWrites_iff_idle {start : Snapshot} (sound : start.Sound) (hard : Nat)
    (written : Except String Unit) (members : List Member) :
    ReadsItsWrites start hard written members ↔
      NoneIdleOnly start members
        (planAll start (GroupPlan.start start hard) members).2.2 := by
  obtain ⟨last, spec⟩ := planAll_spec (groupInv_start sound hard) members
  cases written with
  | error message =>
      obtain ⟨shows, told⟩ := answersFailed_iff spec message
      constructor
      · rintro ⟨effects, -⟩
        exact shows.mp effects
      · intro none_
        exact ⟨shows.mpr none_, fun message' eq => by cases eq; exact told none_⟩
  | ok u =>
      have iff := answersWritten_iff spec (by simpa using last.ready)
        last.ext.base (by rw [last.dataset]; rfl)
      constructor
      · rintro ⟨effects, -⟩
        exact iff.mp effects
      · intro none_
        exact ⟨iff.mpr none_, fun message eq => by cases eq⟩

/-- The callers of a group read their own writes exactly when no accepted transaction
that changes nothing where it is planned would change the dataset the group started
from. -/
theorem readsItsWrites_iff {start : Snapshot} (sound : start.Sound) (hard : Nat)
    (written : Except String Unit) (members : List Member) :
    ReadsItsWrites start hard written members ↔
      NoneRelies start start (GroupPlan.start start hard) members := by
  rw [readsItsWrites_iff_idle sound, noneRelies_iff (groupInv_start sound hard)]

end Answers

section Concrete

attribute [local instance] plainCodec

/-- A call that adds one quad. -/
def addLetters (s p o : UInt8) : Member where
  tx := { dels := [], adds := [.ofLetters s p o], durability := .strict }
  merger := false

theorem readsItsWrites_iff_two_adds :
    ReadsItsWrites Snapshot.ephemeral 10 (.ok ()) [addLetters 1 2 3, addLetters 1 2 4] ↔
      NoneRelies Snapshot.ephemeral Snapshot.ephemeral
        (GroupPlan.start Snapshot.ephemeral 10) [addLetters 1 2 3, addLetters 1 2 4] :=
  readsItsWrites_iff ephemeral_sound 10 (.ok ()) [addLetters 1 2 3, addLetters 1 2 4]

/-- Two calls add the same quad: the second is answered with the snapshot without it. -/
theorem not_readsItsWrites_same_add :
    ¬ ReadsItsWrites Snapshot.ephemeral 10 (.ok ()) [addLetters 1 2 3, addLetters 1 2 3] := by
  rw [readsItsWrites_iff_idle ephemeral_sound, NoneIdleOnly, ephemeral_dataset]
  intro h
  have second : ((planAll Snapshot.ephemeral (GroupPlan.start Snapshot.ephemeral 10)
      [addLetters 1 2 3, addLetters 1 2 3]).2.2[1]?).map Prod.fst = some .unchanged := by decide
  generalize (planAll Snapshot.ephemeral (GroupPlan.start Snapshot.ephemeral 10)
      [addLetters 1 2 3, addLetters 1 2 3]).2.2 = outs at h second
  cases h with
  | cons first rest =>
      cases rest with
      | cons idle last => exact (idle (by simpa using second)).2 _ List.mem_cons_self

end Concrete

end Graphy
