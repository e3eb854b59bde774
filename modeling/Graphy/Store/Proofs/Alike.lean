import Graphy.Store.Compaction
import Graphy.Store.Proofs.Capture

/-!
# Commits on stores that show the same

Two sound snapshots of one dataset over one base plan the same operations of every
transaction.  When the second has no more events it refuses nothing the first takes, and the
same commits leave the same datasets as long as it also refuses what the first refuses.
-/

namespace Graphy

variable [InlineCodec]

namespace PlanState

/-- Plans of one transaction on two snapshots that show the same. -/
structure Alike (a b : PlanState) : Prop where
  left : ∃ start carry, Inv start carry a
  right : ∃ start carry, Inv start carry b
  base : b.snap.base = a.snap.base
  shows : b.shows = a.shows
  length : b.entries.length = a.entries.length

theorem Alike.planDel {a b : PlanState} (alike : Alike a b) (del : QuadTerms × Nat) :
    Alike (a.planDel del) (b.planDel del) := by
  obtain ⟨q, i⟩ := del
  obtain ⟨sa, ca, invA⟩ := alike.left
  obtain ⟨sb, cb, invB⟩ := alike.right
  obtain ⟨invA', showsA, idleA, keptA⟩ := planDel_spec invA q i
  obtain ⟨invB', showsB, idleB, keptB⟩ := planDel_spec invB q i
  have bases : sb.base = sa.base := invB.ext.base.symm.trans (alike.base.trans invA.ext.base)
  rw [bases, alike.shows] at idleB keptB
  refine ⟨⟨_, _, invA'⟩, ⟨_, _, invB'⟩, ?_, ?_, ?_⟩
  · exact invB'.ext.base.trans (bases.trans invA'.ext.base.symm)
  · ext q'
    rw [showsA, showsB, alike.shows, bases]
  · by_cases there : q.named sa.base.dict ∈ a.shows
    · obtain ⟨k, entriesA, -⟩ := keptA there
      obtain ⟨k', entriesB, -⟩ := keptB there
      simp [entriesA, entriesB, alike.length]
    · rw [idleA there, idleB there]
      exact alike.length

theorem Alike.planAdd {a b : PlanState} (alike : Alike a b) (add : QuadTerms × Nat) :
    Alike (a.planAdd add) (b.planAdd add) := by
  obtain ⟨q, i⟩ := add
  obtain ⟨sa, ca, invA⟩ := alike.left
  obtain ⟨sb, cb, invB⟩ := alike.right
  obtain ⟨invA', showsA, idleA, keptA⟩ := planAdd_spec invA q i
  obtain ⟨invB', showsB, idleB, keptB⟩ := planAdd_spec invB q i
  have bases : sb.base = sa.base := invB.ext.base.symm.trans (alike.base.trans invA.ext.base)
  rw [bases, alike.shows] at idleB keptB
  refine ⟨⟨_, _, invA'⟩, ⟨_, _, invB'⟩, ?_, ?_, ?_⟩
  · exact invB'.ext.base.trans (bases.trans invA'.ext.base.symm)
  · ext q'
    rw [showsA, showsB, alike.shows, bases]
  · by_cases there : q.named sa.base.dict ∈ a.shows
    · rw [(idleA there).1, (idleB there).1]
      exact alike.length
    · obtain ⟨k, entriesA, -⟩ := keptA there
      obtain ⟨k', entriesB, -⟩ := keptB there
      simp [entriesA, entriesB, alike.length]

theorem Alike.foldl {α : Type} {f : PlanState → α → PlanState}
    (step : ∀ a b x, Alike a b → Alike (f a x) (f b x)) (l : List α) {a b : PlanState}
    (alike : Alike a b) : Alike (l.foldl f a) (l.foldl f b) := by
  induction l generalizing a b with
  | nil => exact alike
  | cons x l ih => exact ih (step a b x alike)

end PlanState

/-- Both snapshots plan a transaction, or both refuse it with the same error. -/
theorem commitCore_alike {a b : Snapshot} (soundA : a.Sound) (soundB : b.Sound)
    (base : b.base = a.base) {ca cb : Carry} (validA : ca.Valid a) (validB : cb.Valid b)
    (shows : b.shows cb = a.shows ca) (dels adds : List QuadTerms) :
    (∃ e, commitCore a dels adds ca = .error e ∧ commitCore b dels adds cb = .error e) ∨
    ∃ st st', commitCore a dels adds ca = .ok st ∧ commitCore b dels adds cb = .ok st' ∧
      PlanState.Alike st st' := by
  simp only [commitCore]
  cases (dels ++ adds).forM validateQuad with
  | error e => exact Or.inl ⟨e, rfl, rfl⟩
  | ok u =>
      refine Or.inr ⟨_, _, rfl, rfl, ?_⟩
      have start : PlanState.Alike ⟨a, ca, [], []⟩ ⟨b, cb, [], []⟩ :=
        ⟨⟨a, ca, Snapshot.Extends.refl a, soundA.wf, soundA.accepted, by simp, validA⟩,
          ⟨b, cb, Snapshot.Extends.refl b, soundB.wf, soundB.accepted, by simp, validB⟩, base,
          shows, rfl⟩
      exact PlanState.Alike.foldl (fun _ _ add alike => alike.planAdd add) _
        (PlanState.Alike.foldl (fun _ _ del alike => alike.planDel del) _ start)

/-- A group being planned on two snapshots that show the same, the second with no more
events. -/
structure PlansAlike (a b : Snapshot × GroupPlan) : Prop where
  left : ∃ start ms, GroupInv start a.1 a.2 ms
  right : ∃ start ms, GroupInv start b.1 b.2 ms
  base : b.1.base = a.1.base
  shows : b.1.shows b.2.carry = a.1.shows a.2.carry
  hard : b.2.hard = a.2.hard
  events : b.2.events ≤ a.2.events

/-- The carry of a group being planned names terms of its snapshot. -/
theorem GroupInv.carry_valid {start snap : Snapshot} {plan : GroupPlan} {ms : PlannedList}
    (inv : GroupInv start snap plan ms) : plan.carry.Valid snap := by
  rw [inv.carry]
  exact inv.ready.carry_valid

/-- A member that fails leaves the plan alone. -/
theorem planOne_failed {merger : Bool} {snap : Snapshot} {plan : GroupPlan} {tx : Tx}
    {e : StoreError} (failed : (planOne merger snap plan tx).2.2 = .failed e) :
    planOne merger snap plan tx = (snap, plan, .failed e) := by
  by_cases full : plan.hard ≤ plan.events ∧ merger = false
  · simp only [planOne, if_pos full] at failed ⊢
    rw [failed]
  · cases core : commitCore snap tx.dels tx.adds plan.carry with
    | error e' =>
        simp only [planOne, if_neg full, core] at failed ⊢
        rw [failed]
    | ok st =>
        by_cases idle : st.entries = []
        · simp only [planOne, if_neg full, core, if_pos idle] at failed
          cases failed
        · simp only [planOne, if_neg full, core, if_neg idle] at failed
          cases failed

/-- What the first refuses for its budget the second refuses too. -/
def BudgetAlike (a b : Snapshot × GroupPlan) (m : Member) : Prop :=
  Snapshot.RefusedForBudget (planOne m.merger a.1 a.2 m.tx).2.2 →
    Snapshot.RefusedForBudget (planOne m.merger b.1 b.2 m.tx).2.2

theorem PlansAlike.planOne {a b : Snapshot × GroupPlan} (alike : PlansAlike a b) (m : Member)
    (same : BudgetAlike a b m) :
    PlansAlike
        ((planOne m.merger a.1 a.2 m.tx).1, (planOne m.merger a.1 a.2 m.tx).2.1)
        ((planOne m.merger b.1 b.2 m.tx).1, (planOne m.merger b.1 b.2 m.tx).2.1) ∧
      BudgetAlike b a m := by
  obtain ⟨sa, msA, invA⟩ := alike.left
  obtain ⟨sb, msB, invB⟩ := alike.right
  by_cases fullA : a.2.hard ≤ a.2.events ∧ m.merger = false
  · -- refused here, so refused there, and neither moves
    have outA : Graphy.planOne m.merger a.1 a.2 m.tx =
        (a.1, a.2, .failed (budgetExhausted a.2.events a.2.hard)) := by
      simp only [Graphy.planOne, if_pos fullA]
    have refused : Snapshot.RefusedForBudget (Graphy.planOne m.merger a.1 a.2 m.tx).2.2 :=
      ⟨_, _, by rw [outA]⟩
    obtain ⟨events, limit, there⟩ := same refused
    have outB := planOne_failed there
    rw [outB]
    refine ⟨?_, fun _ => refused⟩
    rw [outA]
    exact alike
  · have roomB : ¬ (b.2.hard ≤ b.2.events ∧ m.merger = false) := by
      rintro ⟨full, none_⟩
      refine fullA ⟨?_, none_⟩
      have := alike.hard
      have := alike.events
      omega
    obtain ⟨left, extA, -⟩ := planOne_spec invA m.merger m.tx
    obtain ⟨right, extB, -⟩ := planOne_spec invB m.merger m.tx
    have base := extB.base.trans (alike.base.trans extA.base.symm)
    rcases commitCore_alike invA.ready.sound invB.ready.sound alike.base invA.carry_valid
      invB.carry_valid alike.shows m.tx.dels m.tx.adds with
      ⟨e, coreA, coreB⟩ | ⟨st, st', coreA, coreB, states⟩
    · have outA : Graphy.planOne m.merger a.1 a.2 m.tx = (a.1, a.2, .failed e) := by
        simp only [Graphy.planOne, if_neg fullA, coreA]
      have outB : Graphy.planOne m.merger b.1 b.2 m.tx = (b.1, b.2, .failed e) := by
        simp only [Graphy.planOne, if_neg roomB, coreB]
      simp only [BudgetAlike, outA, outB]
      exact ⟨alike, id⟩
    · have count := states.length
      by_cases idle : st.entries = []
      · have idle' : st'.entries = [] := by
          rw [idle] at count
          exact List.length_eq_zero_iff.mp count
        have outA : Graphy.planOne m.merger a.1 a.2 m.tx =
            (st.snap, { a.2 with carry := st.carry }, .unchanged) := by
          simp only [Graphy.planOne, if_neg fullA, coreA, if_pos idle]
        have outB : Graphy.planOne m.merger b.1 b.2 m.tx =
            (st'.snap, { b.2 with carry := st'.carry }, .unchanged) := by
          simp only [Graphy.planOne, if_neg roomB, coreB, if_pos idle']
        rw [outA] at left base
        rw [outB] at right base
        simp only [BudgetAlike, outA, outB]
        exact ⟨⟨⟨sa, _, left⟩, ⟨sb, _, right⟩, base, states.shows, alike.hard, alike.events⟩, id⟩
      · have idle' : st'.entries ≠ [] := by
          intro none_
          rw [none_] at count
          exact idle (List.length_eq_zero_iff.mp count.symm)
        simp only [BudgetAlike, Graphy.planOne, if_neg fullA, coreA, if_neg idle, if_neg roomB,
          coreB, if_neg idle'] at left right base ⊢
        refine ⟨⟨⟨sa, _, left⟩, ⟨sb, _, right⟩, base, states.shows, alike.hard, ?_⟩, ?_⟩
        · simp only [count]
          exact Nat.add_le_add_right alike.events _
        · rintro ⟨events, limit, failed⟩
          cases failed

theorem PlansAlike.planAll {a b : Snapshot × GroupPlan} (alike : PlansAlike a b)
    (members : List Member)
    (same : List.Forall₂
      (fun o o' => Snapshot.RefusedForBudget o → Snapshot.RefusedForBudget o')
      ((planAll a.1 a.2 members).2.2.map Prod.fst) ((planAll b.1 b.2 members).2.2.map Prod.fst)) :
    PlansAlike
        ((planAll a.1 a.2 members).1, (planAll a.1 a.2 members).2.1)
        ((planAll b.1 b.2 members).1, (planAll b.1 b.2 members).2.1) ∧
      List.Forall₂
        (fun o o' => Snapshot.RefusedForBudget o → Snapshot.RefusedForBudget o')
        ((planAll b.1 b.2 members).2.2.map Prod.fst)
        ((planAll a.1 a.2 members).2.2.map Prod.fst) := by
  induction members generalizing a b with
  | nil => exact ⟨alike, .nil⟩
  | cons m rest ih =>
      simp only [Graphy.planAll, List.map_cons, List.forall₂_cons] at same ⊢
      obtain ⟨next, first⟩ := alike.planOne m same.1
      obtain ⟨last, later⟩ := ih next same.2
      exact ⟨last, first, later⟩

/-! ## Recording -/

omit [InlineCodec] in
theorem PlannedList.entries_append (ms ms' : PlannedList) :
    PlannedList.entries (ms ++ ms') = ms.entries ++ ms'.entries := List.flatMap_append

/-- Planning keeps count of the entries it will record. -/
theorem planAll_events (dict : Dictionary) (snap : Snapshot) (plan : GroupPlan)
    (members : List Member) : (planAll snap plan members).2.1.events =
      plan.events + (plannedOf dict members (planAll snap plan members).2.2).entries.length := by
  have one (snap : Snapshot) (plan : GroupPlan) (m : Member) :
      (planOne m.merger snap plan m.tx).2.1.events = plan.events + (PlanOutcome.planList
        (planOne m.merger snap plan m.tx).2.2 (m.tx.updateOn dict)).entries.length := by
    simp only [planOne]
    split
    · rfl
    · cases commitCore snap m.tx.dels m.tx.adds plan.carry with
      | error e => rfl
      | ok st =>
          simp only
          split
          · rfl
          · simp [PlanOutcome.planList, PlannedList.entries]
  induction members generalizing snap plan with
  | nil => rfl
  | cons m rest ih =>
      simp only [planAll, plannedOf, PlannedList.entries_append, List.length_append]
      rw [ih, one]
      exact Nat.add_assoc _ _ _

omit [InlineCodec] in
theorem events_recordAll (ms : PlannedList) (snap : Snapshot) :
    (ms.foldl (fun s m => s.record m.2) snap).delta.events =
      snap.delta.events + ms.entries.length := by
  induction ms generalizing snap with
  | nil => rfl
  | cons m ms ih =>
      rw [List.foldl_cons, ih]
      simp only [Snapshot.record, Delta.record, PlannedList.entries, List.flatMap_cons,
        List.length_append]
      omega

namespace Snapshot

/-- What a group of commits leaves. -/
theorem commitGroup_spec {snap : Snapshot} (sound : snap.Sound) (hard : Nat)
    (members : List Member) :
    (snap.commitGroup hard members).Sound ∧
      (snap.commitGroup hard members).base = snap.base ∧
      (snap.commitGroup hard members).dataset =
        (planAll snap (GroupPlan.start snap hard) members).1.shows
          (planAll snap (GroupPlan.start snap hard) members).2.1.carry ∧
      (snap.commitGroup hard members).delta.events =
        (planAll snap (GroupPlan.start snap hard) members).2.1.events := by
  obtain ⟨inv, spec⟩ := planAll_spec (groupInv_start sound hard) members
  rw [List.nil_append] at inv
  obtain ⟨sound', base, -, dataset, -⟩ := inv.ready.recordAll
  have recorded : snap.commitGroup hard members = (plannedOf snap.base.dict members
      (planAll snap (GroupPlan.start snap hard) members).2.2).foldl (fun s m => s.record m.2)
        (planAll snap (GroupPlan.start snap hard) members).1 := recordPlanned_eq _ spec
  rw [recorded]
  refine ⟨sound', base.trans inv.ext.base, ?_, ?_⟩
  · rw [dataset, inv.shows, inv.dataset]
  · rw [events_recordAll, planAll_events snap.base.dict, inv.ext.delta.events]
    rfl

/-- Two sound snapshots of one dataset over one base, the second with no more events. -/
structure Alike (a b : Snapshot) : Prop where
  left : a.Sound
  right : b.Sound
  base : b.base = a.base
  dataset : b.dataset = a.dataset
  events : b.delta.events ≤ a.delta.events

theorem Alike.commitGroup {a b : Snapshot} (alike : Alike a b) {round : Round}
    (same : List.Forall₂ (fun o o' => RefusedForBudget o → RefusedForBudget o')
      (a.outcomes round) (b.outcomes round)) :
    List.Forall₂ (fun o o' => RefusedForBudget o → RefusedForBudget o')
        (b.outcomes round) (a.outcomes round) ∧
      Alike (a.commitGroup round.hard round.members) (b.commitGroup round.hard round.members) := by
  have start : PlansAlike (a, GroupPlan.start a round.hard) (b, GroupPlan.start b round.hard) := by
    refine ⟨⟨a, [], groupInv_start alike.left _⟩, ⟨b, [], groupInv_start alike.right _⟩,
      alike.base, ?_, rfl, alike.events⟩
    change b.shows Carry.none = a.shows Carry.none
    rw [shows_none alike.right.wf, shows_none alike.left.wf, alike.dataset]
  obtain ⟨last, back⟩ := start.planAll round.members same
  obtain ⟨soundA, baseA, datasetA, eventsA⟩ := commitGroup_spec alike.left round.hard round.members
  obtain ⟨soundB, baseB, datasetB, eventsB⟩ := commitGroup_spec alike.right round.hard round.members
  refine ⟨back, soundA, soundB, baseB.trans (alike.base.trans baseA.symm), ?_, ?_⟩
  · rw [datasetA, datasetB]
    exact last.shows
  · rw [eventsA, eventsB]
    exact last.events

/-- The same rounds lead to the same datasets. -/
theorem Alike.rounds {a b : Snapshot} (alike : Alike a b) {coming : List Round}
    (same : RefusesOnly a b coming) :
    RefusesOnly b a coming ∧ (b.rounds coming).dataset = (a.rounds coming).dataset := by
  induction coming generalizing a b with
  | nil => exact ⟨trivial, alike.dataset⟩
  | cons round rest ih =>
      obtain ⟨back, next⟩ := alike.commitGroup same.1
      obtain ⟨later, dataset⟩ := ih next same.2
      exact ⟨⟨back, later⟩, dataset⟩

end Snapshot

end Graphy
