import Graphy.Store.Proofs.System

/-!
# Where each call's transaction is

A submitted transaction is in exactly one place: the queue, the hands of one
party, or answered.  `Status` says which places go with which point of the call.
-/

namespace Graphy

/-- Calls whose transactions a party holds unanswered. -/
def Pc.held (p : Party) : Pc → List Nat
  | .elected =>
      match p with
      | .call c => [c]
      | .merge => []
  | .collected _ _ group => group
  | .planning run => run.planned.map GroupTx.call ++ run.todo
  | .answering run _ next => (run.planned.drop next).map GroupTx.call
  | _ => []

/-- The leader's own answer, once it has one. -/
def Pc.own : Pc → Option Answer
  | .collected _ own _ => own
  | .planning run => run.own
  | .answering run _ _ => run.own
  | .draining own => own
  | _ => none

/-- What matters of a call's point for where its transaction is. -/
inductive Shape where
  | outside
  | waiting
  | leading (mine : Option Nat) (own : Option Answer)
  | returned (answer : Answer)

def Pc.shape (c : Nat) : Pc → Shape
  | .idle | .checked | .admitted => .outside
  | .waiting => .waiting
  | .returned a => .returned a
  | pc => .leading (pc.mine (.call c)) pc.own

/-- Where the transaction of call `c` is: `queued` and `held` count its places. -/
def Status (c : Nat) (answers : List Given) (slot : Option Answer) (queued : Nat)
    (held : Party → Nat) : Shape → Prop
  | .outside => answers = [] ∧ slot = none ∧ queued = 0 ∧ ∀ p, held p = 0
  | .waiting =>
      (answers = [] ∧ slot = none ∧ queued = 1 ∧ ∀ p, held p = 0) ∨
        (answers = [] ∧ slot = none ∧ queued = 0 ∧ ∃ p, held p = 1 ∧ ∀ q, q ≠ p → held q = 0) ∨
        ∃ g, answers = [g] ∧ slot = some g.answer ∧ queued = 0 ∧ ∀ p, held p = 0
  | .leading mine own =>
      slot = none ∧ queued = 0 ∧ (∀ q, q ≠ .call c → held q = 0) ∧
        ((answers = [] ∧ mine = some c ∧ held (.call c) = 1) ∨
          ∃ g, answers = [g] ∧ own = some g.answer ∧ held (.call c) = 0)
  | .returned a => ∃ g, answers = [g] ∧ g.answer = a ∧ slot = none ∧ queued = 0 ∧ ∀ p, held p = 0

namespace Sys

/-- How often a party holds the transaction of a call. -/
def heldCount (s : Sys) (c : Nat) (p : Party) : Nat := ((s.pcs p).held p).count c

def CallOk (s : Sys) (c : Nat) : Prop :=
  Status c (s.answers c) (s.slots c) (s.pending.count c) (s.heldCount c)
    ((s.pcs (.call c)).shape c)

theorem heldCount_update {s s' : Sys} {p : Party} {x : Pc}
    (pcs : s'.pcs = Function.update s.pcs p x) (c : Nat) (q : Party) :
    s'.heldCount c q = if q = p then (x.held p).count c else s.heldCount c q := by
  simp only [heldCount, pcs]
  by_cases eq : q = p
  · subst eq
    simp
  · simp [eq]

/-- A step that changes nothing about this call's transaction. -/
theorem CallOk.frame {s s' : Sys} {c : Nat} (ok : s.CallOk c) {p : Party} {x : Pc}
    (pcs : s'.pcs = Function.update s.pcs p x) (answers : s'.answers c = s.answers c)
    (slots : s'.slots c = s.slots c) (queued : s'.pending.count c = s.pending.count c)
    (held : (x.held p).count c = s.heldCount c p)
    (shape : p = .call c → x.shape c = (s.pcs p).shape c) : s'.CallOk c := by
  have sameHeld : s'.heldCount c = s.heldCount c := by
    funext q
    rw [heldCount_update pcs]
    split
    · rename_i eq
      rw [held, eq]
    · rfl
  have sameShape : (s'.pcs (.call c)).shape c = (s.pcs (.call c)).shape c := by
    rw [pcs]
    by_cases eq : Party.call c = p
    · subst eq
      rw [Function.update_self, shape rfl]
    · rw [Function.update_of_ne eq]
  simpa only [CallOk, answers, slots, queued, sameHeld, sameShape] using ok

/-- Delivering an answer moves one transaction from the party's hands to answered. -/
theorem callOk_deliver {s s' : Sys} (ctl : s.Control) (ok : ∀ c, s.CallOk c) {p : Party}
    {r : GroupRun} {x : Pc} {d : Nat} {a : Answer} {b : Sys}
    (old : (s.pcs p).mine p = r.mine)
    (oldShape : ∀ c, (s.pcs p).shape c = .leading r.mine r.own)
    (baseAnswers : b.answers = s.answers) (baseSlots : b.slots = s.slots)
    (pcs : s'.pcs = Function.update s.pcs p x)
    (shape : ∀ c, x.shape c = .leading r.mine (b.deliver r d a).2.own)
    (answers : s'.answers = (b.deliver r d a).1.answers)
    (slots : s'.slots = (b.deliver r d a).1.slots) (pending : s'.pending = s.pending)
    (held : ∀ c, s.heldCount c p = (if c = d then 1 else 0) + (x.held p).count c) (c : Nat) :
    s'.CallOk c := by
  have mineParty {e : Nat} (h : r.mine = some e) : p = .call e := ctl.mine p e (old.trans h)
  by_cases other : c = d
  · subst other
    have before := ok c
    have one := held c
    simp only [if_true] at one
    have counts (q : Party) : s'.heldCount c q =
        if q = p then (x.held p).count c else s.heldCount c q := heldCount_update pcs c q
    by_cases mine : r.mine = some c
    · -- the leader's own transaction
      have eq := mineParty mine
      subst eq
      simp only [CallOk, oldShape, Status] at before
      obtain ⟨slot, queued, others, places⟩ := before
      rcases places with ⟨none_, -, here⟩ | ⟨g, -, -, here⟩
      · have given : s'.answers c = [⟨a, b.current.epoch⟩] := by
          simp [answers, deliver, mine, note, baseAnswers, none_]
        have slot' : s'.slots c = none := by
          simp [slots, deliver, mine, note, baseSlots, slot]
        have own : (b.deliver r c a).2.own = some a := by simp [deliver, mine]
        simp only [CallOk, pcs, Function.update_self, shape, Status, own]
        refine ⟨slot', by rw [pending]; exact queued, ?_, Or.inr ⟨_, given, rfl, ?_⟩⟩
        · intro q ne
          rw [counts, if_neg ne]
          exact others q ne
        · rw [counts, if_pos rfl]
          omega
      · omega
    · -- a follower
      have given : s'.answers c = s.answers c ++ [⟨a, b.current.epoch⟩] := by
        simp [answers, deliver, mine, fill, note, baseAnswers]
      have slot' : s'.slots c = some a := by simp [slots, deliver, mine, fill, note]
      by_cases self : p = .call c
      · subst self
        simp only [CallOk, oldShape, Status] at before
        obtain ⟨-, -, -, places⟩ := before
        rcases places with ⟨-, isMine, -⟩ | ⟨g, -, -, here⟩
        · exact absurd isMine mine
        · omega
      · have sameShape : (s'.pcs (.call c)).shape c = (s.pcs (.call c)).shape c := by
          rw [pcs, Function.update_of_ne (Ne.symm self)]
        simp only [CallOk, sameShape] at before ⊢
        cases point : (s.pcs (.call c)).shape c with
        | outside =>
            rw [point] at before
            have := before.2.2.2 p
            omega
        | returned b =>
            rw [point] at before
            obtain ⟨g, -, -, -, -, none_⟩ := before
            have := none_ p
            omega
        | leading m o =>
            rw [point] at before
            have := before.2.2.1 p self
            omega
        | waiting =>
            rw [point] at before
            rcases before with ⟨-, -, -, none_⟩ | ⟨none_, -, queued, q, isOne, rest⟩ | ⟨g, -, -, -, none_⟩
            · have := none_ p
              omega
            · have same : q = p := by
                by_contra ne
                have := rest p (Ne.symm ne)
                omega
              subst same
              refine Or.inr (Or.inr ⟨⟨a, b.current.epoch⟩, ?_, slot', ?_, ?_⟩)
              · rw [given, none_, List.nil_append]
              · rw [pending]
                exact queued
              · intro r
                rw [counts]
                split
                · omega
                · rename_i ne
                  exact rest r ne
            · have := none_ p
              omega
  · have own : p = .call c → (b.deliver r d a).2.own = r.own := by
      intro eq
      have notMine : r.mine ≠ some d := fun h => other (by
        have := eq.symm.trans (mineParty h)
        cases this
        rfl)
      simp [deliver, notMine]
    refine (ok c).frame pcs ?_ ?_ (by rw [pending]) ?_ ?_
    · rw [answers]
      by_cases mine : r.mine = some d
      · simp [deliver, mine, note, baseAnswers, Function.update_of_ne other]
      · simp [deliver, mine, fill, note, baseAnswers, Function.update_of_ne other]
    · rw [slots]
      by_cases mine : r.mine = some d
      · simp [deliver, mine, note, baseSlots]
      · simp [deliver, mine, fill, note, baseSlots, Function.update_of_ne other]
    · rw [held c, if_neg other, Nat.zero_add]
    · intro eq
      rw [shape, oldShape, own eq]

/-- A call that holds nothing returns with its only answer. -/
theorem callOk_returned {s s' : Sys} {c : Nat} {a : Answer}
    (pcs : s'.pcs = Function.update s.pcs (.call c) (.returned a))
    (given : ∃ g, s'.answers c = [g] ∧ g.answer = a) (slot : s'.slots c = none)
    (queued : s'.pending.count c = 0) (held : ∀ q, q ≠ .call c → s.heldCount c q = 0) :
    s'.CallOk c := by
  obtain ⟨g, answers, eq⟩ := given
  simp only [CallOk, pcs, Function.update_self, Pc.shape, Status]
  refine ⟨g, answers, eq, slot, queued, ?_⟩
  intro q
  rw [heldCount_update pcs]
  split
  · simp [Pc.held]
  · rename_i ne
    exact held q ne

/-- Moving the queue into the hands of a leader. -/
theorem callOk_takeQueue {s s' : Sys} {p : Party} {x : Pc} (ok : ∀ c, s.CallOk c)
    (pcs : s'.pcs = Function.update s.pcs p x) (answers : s'.answers = s.answers)
    (slots : s'.slots = s.slots) (pending : s'.pending = [])
    (held : ∀ c, (x.held p).count c = s.heldCount c p + s.pending.count c)
    (shape : ∀ c, p = .call c → x.shape c = (s.pcs p).shape c)
    (notQueued : ∀ c, p = .call c → s.pending.count c = 0) (c : Nat) : s'.CallOk c := by
  by_cases none_ : s.pending.count c = 0
  · exact (ok c).frame pcs (by rw [answers]) (by rw [slots]) (by rw [pending, none_]; rfl)
      (by rw [held, none_, Nat.add_zero]) (shape c)
  · have apart : p ≠ .call c := fun eq => none_ (notQueued c eq)
    have before := ok c
    have sameShape : (s'.pcs (.call c)).shape c = (s.pcs (.call c)).shape c := by
      rw [pcs, Function.update_of_ne (Ne.symm apart)]
    have counts (q : Party) : s'.heldCount c q =
        if q = p then (x.held p).count c else s.heldCount c q := heldCount_update pcs c q
    simp only [CallOk, sameShape, answers, slots, pending] at before ⊢
    cases point : (s.pcs (.call c)).shape c with
    | outside =>
        rw [point] at before
        exact absurd before.2.2.1 none_
    | returned b =>
        rw [point] at before
        obtain ⟨g, -, -, -, queued, -⟩ := before
        exact absurd queued none_
    | leading m o =>
        rw [point] at before
        exact absurd before.2.1 none_
    | waiting =>
        rw [point] at before
        rcases before with ⟨unanswered, slot, queued, nobody⟩ | ⟨-, -, queued, -⟩ | ⟨g, -, -, queued, -⟩
        · refine Or.inr (Or.inl ⟨unanswered, slot, rfl, p, ?_, ?_⟩)
          · rw [counts, if_pos rfl, held, queued, nobody p]
          · intro q ne
            rw [counts, if_neg ne]
            exact nobody q
        · exact absurd queued none_
        · exact absurd queued none_

variable [InlineCodec]

theorem callOk_plan {txs : Nat → Tx} {s : Sys} (ctl : s.Control) (ok : ∀ c, s.CallOk c) {p : Party}
    {run : GroupRun} {d : Nat} {rest : List Nat} (pc : s.pcs p = .planning run)
    (todo : run.todo = d :: rest) (c : Nat) : (s.planNext txs p run d rest).CallOk c := by
  have before (c : Nat) : s.heldCount c p =
      (run.planned.map GroupTx.call).count c + (d :: rest).count c := by
    simp only [heldCount, pc, Pc.held, todo, List.count_append]
  have split (c : Nat) : (d :: rest).count c = (if c = d then 1 else 0) + rest.count c := by
    rw [List.count_cons]
    by_cases eq : c = d
    · subst eq
      simp [Nat.add_comm]
    · simp [eq, Ne.symm eq]
  -- one transaction leaves the hands of the party when it is answered at once
  have deliver (base : Sys) (run' : GroupRun) (a : Answer) (answers : base.answers = s.answers)
      (slots : base.slots = s.slots) (pcs : base.pcs = s.pcs) (pending : base.pending = s.pending)
      (mine : run'.mine = run.mine) (own : run'.own = run.own) (todo' : run'.todo = rest)
      (planned : run'.planned = run.planned) :
      ((base.deliver run' d a).1.setPc p (.planning (base.deliver run' d a).2)).CallOk c := by
    obtain ⟨pcs', -, -, pending', -⟩ := deliver_frame base run' d a
    obtain ⟨-, -, todo'', planned', mine'⟩ := deliver_run base run' d a
    apply callOk_deliver (p := p) (r := run') (d := d) (a := a) (b := base)
      (x := .planning (base.deliver run' d a).2) ctl ok
    · rw [pc, mine]
      rfl
    · intro c
      rw [pc, mine, own]
      rfl
    · exact answers
    · exact slots
    · exact congrArg (fun f => Function.update f p _) (pcs'.trans pcs)
    · intro c
      rw [← mine']
      rfl
    · rfl
    · rfl
    · exact pending'.trans pending
    · intro c
      rw [before, split]
      simp only [Pc.held, planned', planned, todo'', todo', List.count_append]
      omega
  simp only [planNext]
  cases (planOne s.merger (s.deref run.start) run.plan (txs d)).2.2 with
  | planned tx =>
      refine (ok c).frame rfl rfl rfl rfl ?_ ?_
      · rw [before]
        simp [Pc.held, List.count_append, List.count_cons, Nat.add_assoc, Nat.add_comm]
      · intro _
        rw [pc]
        rfl
  | unchanged => exact deliver _ _ _ rfl rfl rfl rfl rfl rfl rfl rfl
  | failed e => exact deliver _ _ _ rfl rfl rfl rfl rfl rfl rfl rfl

omit [InlineCodec] in
theorem callOk_answer {s : Sys} (ctl : s.Control) (ok : ∀ c, s.CallOk c) {p : Party}
    {run : GroupRun} {written : Except String Unit} {next : Nat} {m : GroupTx}
    (pc : s.pcs p = .answering run written next) (get : run.planned[next]? = some m) (c : Nat) :
    (s.answerNext p run written next m).CallOk c := by
  obtain ⟨bound, here⟩ := List.getElem?_eq_some_iff.mp get
  have tail : run.planned.drop next = m :: run.planned.drop (next + 1) := by
    rw [List.drop_eq_getElem_cons bound, here]
  have deliver (base s' : Sys) (a : Answer) (answers : base.answers = s.answers)
      (slots : base.slots = s.slots) (pcs : base.pcs = s.pcs) (pending : base.pending = s.pending)
      (pcs' : s'.pcs = Function.update (base.deliver run m.call a).1.pcs p
        (.answering (base.deliver run m.call a).2 written (next + 1)))
      (answers' : s'.answers = (base.deliver run m.call a).1.answers)
      (slots' : s'.slots = (base.deliver run m.call a).1.slots)
      (pending' : s'.pending = (base.deliver run m.call a).1.pending) : s'.CallOk c := by
    obtain ⟨keepPcs, -, -, keepPending, -⟩ := deliver_frame base run m.call a
    obtain ⟨-, -, -, planned, mine⟩ := deliver_run base run m.call a
    refine callOk_deliver (r := run) (b := base) ctl ok (by rw [pc]; rfl) ?_ answers slots
      (x := .answering (base.deliver run m.call a).2 written (next + 1))
      (by rw [pcs', keepPcs, pcs]) ?_ answers' slots' (by rw [pending', keepPending, pending]) ?_ c
    · intro c
      rw [pc]
      rfl
    · intro c
      rw [← mine]
      rfl
    · intro c
      simp only [heldCount, pc, Pc.held, tail, planned, List.map_cons, List.count_cons]
      by_cases eq : c = m.call
      · simp [eq, Nat.add_comm]
      · simp [eq, Ne.symm eq]
  cases written with
  | error message => exact deliver _ _ _ rfl rfl rfl rfl rfl rfl rfl rfl
  | ok u =>
      exact deliver (s.setDelta run.start.arc ((s.deref run.start).record m.tx).delta) _
        (.ok { run.start with epoch := m.tx.epoch }) rfl rfl rfl rfl rfl rfl rfl rfl

theorem callOk_move {txs : Nat → Tx} {s s' : Sys} {a : Action} (ctl : s.Control)
    (ok : ∀ c, s.CallOk c) (move : Move txs s a s') (c : Nat) : s'.CallOk c := by
  -- a point of the merge that holds nothing
  have mergeFrame {s' : Sys} {x : Pc} (pcs : s'.pcs = Function.update s.pcs .merge x)
      (answers : s'.answers = s.answers) (slots : s'.slots = s.slots)
      (pending : s'.pending = s.pending) (old : (s.pcs .merge).held .merge = [])
      (new : x.held .merge = []) : s'.CallOk c :=
    (ok c).frame pcs (by rw [answers]) (by rw [slots]) (by rw [pending])
      (by simp only [heldCount, old, new]) (by simp)
  cases move with
  | enter pc | pass pc =>
      exact (ok c).frame rfl rfl rfl rfl (by simp only [heldCount, pc, Pc.held])
        fun _ => by rw [pc]; rfl
  | @enterPoisoned d pc _ | @refuse d _ pc =>
      by_cases eq : c = d
      · subst eq
        have before := ok c
        simp only [CallOk, pc, Pc.shape, Status] at before
        obtain ⟨none_, slot, queued, held⟩ := before
        exact callOk_returned rfl ⟨⟨_, s.current.epoch⟩, by simp [note, setPc, none_], rfl⟩ slot queued
          fun q _ => held q
      · refine (ok c).frame rfl ?_ rfl rfl (by simp only [heldCount, pc, Pc.held]) ?_
        · simp [note, setPc, Function.update_of_ne eq]
        · rintro h
          cases h
          exact absurd rfl eq
  | @enqueue d pc busy =>
      by_cases eq : c = d
      · subst eq
        have before := ok c
        simp only [CallOk, pc, Pc.shape, Status] at before
        obtain ⟨none_, slot, queued, held⟩ := before
        simp only [CallOk, setPc, Function.update_self, Pc.shape, Status]
        refine Or.inl ⟨none_, slot, ?_, ?_⟩
        · simp [List.count_append, queued]
        · intro q
          rw [heldCount_update rfl]
          split
          · rfl
          · exact held q
      · refine (ok c).frame rfl rfl rfl ?_ (by simp only [heldCount, pc, Pc.held]) ?_
        · simp [setPc, List.count_append, Ne.symm eq]
        · rintro h
          cases h
          exact absurd rfl eq
  | @elect d pc free noSwap =>
      by_cases eq : c = d
      · subst eq
        have before := ok c
        simp only [CallOk, pc, Pc.shape, Status] at before
        obtain ⟨none_, slot, queued, held⟩ := before
        simp only [CallOk, setPc, Function.update_self, Pc.shape, Status]
        refine ⟨slot, queued, ?_, Or.inl ⟨none_, rfl, ?_⟩⟩
        · intro q ne
          rw [heldCount_update rfl, if_neg ne]
          exact held q
        · rw [heldCount_update rfl, if_pos rfl]
          simp [Pc.held]
      · refine (ok c).frame rfl rfl rfl rfl ?_ ?_
        · simp [heldCount, pc, Pc.held, Ne.symm eq]
        · rintro h
          cases h
          exact absurd rfl eq
  | @wake d a pc slot =>
      by_cases eq : c = d
      · subst eq
        have before := ok c
        simp only [CallOk, pc, Pc.shape, Status] at before
        rcases before with ⟨-, empty, -⟩ | ⟨-, empty, -⟩ | ⟨g, answers, filled, queued, held⟩
        · rw [slot] at empty
          cases empty
        · rw [slot] at empty
          cases empty
        · rw [slot] at filled
          exact callOk_returned rfl ⟨g, answers, (Option.some.inj filled).symm⟩ (by simp [setPc]) queued
            fun q _ => held q
      · refine (ok c).frame rfl rfl ?_ rfl (by simp only [heldCount, pc, Pc.held]) ?_
        · simp [setPc, Function.update_of_ne eq]
        · rintro h
          cases h
          exact absurd rfl eq
  | @collect d pc =>
      refine callOk_takeQueue (p := .call d) (x := .collected (some d) none (d :: s.pending)) ok ?_ ?_ ?_ ?_ ?_ ?_ ?_ c
      · rfl
      · rfl
      · rfl
      · rfl
      · intro c
        simp only [heldCount, pc, Pc.held, List.count_cons, List.count_nil]
        omega
      · rintro c h
        cases h
        rw [pc]
        rfl
      · rintro c h
        cases h
        have before := ok d
        simp only [CallOk, pc, Pc.shape, Status] at before
        exact before.2.1
  | @start p mine own group pc =>
      exact (ok c).frame rfl rfl rfl rfl (by simp [heldCount, pc, Pc.held])
        fun _ => by rw [pc]; rfl
  | plan pc todo => exact callOk_plan ctl ok pc todo c
  | @write p run pc todo =>
      have keep := append_frame s run.plan.frames
      refine (ok c).frame (p := p) (x := .answering run (.ok ()) 0) ?_ ?_ ?_ ?_ ?_ ?_
      · simp only [setPc, keep.2]
      · simp only [append, setPc]
        split <;> rfl
      · simp only [append, setPc]
        split <;> rfl
      · simp only [setPc, keep.1.pending]
      · simp [heldCount, pc, Pc.held, todo]
      · exact fun _ => by rw [pc]; rfl
  | writeFailed pc todo =>
      exact (ok c).frame rfl rfl rfl rfl (by simp [heldCount, pc, Pc.held, todo])
        fun _ => by rw [pc]; rfl
  | answer pc get => exact callOk_answer ctl ok pc get c
  | @publish p run written pc =>
      obtain ⟨same, pcs⟩ := publishGroup_frame s p run written
      have answers : (s.publishGroup p run written).answers = s.answers := by
        simp only [publishGroup]
        split <;> rfl
      have slots : (s.publishGroup p run written).slots = s.slots := by
        simp only [publishGroup]
        split <;> rfl
      by_cases eq : p = .call c
      · subst eq
        have before := ok c
        have nobody : s.heldCount c (.call c) = 0 := by simp [heldCount, pc, Pc.held]
        simp only [CallOk, pc, Pc.shape, Status, nobody] at before
        simp only [CallOk, pcs, Function.update_self, Pc.shape, Status, answers, slots, same.pending]
        refine ⟨before.1, before.2.1, ?_, Or.inr ?_⟩
        · intro q ne
          rw [heldCount_update pcs, if_neg ne]
          exact before.2.2.1 q ne
        · rcases before.2.2.2 with ⟨-, -, h⟩ | ⟨g, h, own, -⟩
          · omega
          · refine ⟨g, h, own, ?_⟩
            rw [heldCount_update pcs, if_pos rfl]
            rfl
      · exact (ok c).frame pcs (by rw [answers]) (by rw [slots]) (by rw [same.pending])
          (by simp [heldCount, pc, Pc.held]) fun h => absurd h eq
  | @release d a pc done =>
      by_cases eq : c = d
      · subst eq
        have before := ok c
        have nobody : s.heldCount c (.call c) = 0 := by simp [heldCount, pc, Pc.held]
        simp only [CallOk, pc, Pc.shape, Status, nobody] at before
        obtain ⟨slot, queued, others, places⟩ := before
        rcases places with ⟨-, -, h⟩ | ⟨g, answers, own, -⟩
        · omega
        · exact callOk_returned rfl ⟨g, answers, (Option.some.inj own).symm⟩ slot queued others
      · refine (ok c).frame rfl rfl rfl rfl (by simp only [heldCount, pc, Pc.held]) ?_
        rintro h
        cases h
        exact absurd rfl eq
  | releaseMerge pc done => exact mergeFrame rfl rfl rfl rfl (by rw [pc]; rfl) rfl
  | @take p own pc noSwap =>
      refine callOk_takeQueue (p := p) (x := .collected none own s.pending) ok ?_ ?_ ?_ ?_ ?_ ?_ ?_ c
      · rfl
      · rfl
      · rfl
      · rfl
      · intro c
        simp [heldCount, pc, Pc.held]
      · intro c _
        rw [pc]
        rfl
      · rintro c h
        subst h
        have before := ok c
        simp only [CallOk, pc, Pc.shape, Status] at before
        exact before.2.1
  | @mergeLog freeze pc =>
      have keep := append_frame s [.mergeStart freeze.epoch]
      refine mergeFrame (x := .merging (.logged freeze)) ?_ ?_ ?_ ?_ (by rw [pc]; rfl) rfl
      · simp only [setPc, keep.2]
      · simp only [append, setPc]
        split <;> rfl
      · simp only [append, setPc]
        split <;> rfl
      · simp only [setPc, keep.1.pending]
  | mergeStart pc | mergeNotLogged pc | mergeWork pc _ | mergeFail pc | await pc _ | acquire pc _
  | seize pc _ =>
      exact mergeFrame rfl rfl rfl rfl (by rw [pc]; rfl) rfl
  | @swap job remap outcome pc carried =>
      obtain ⟨same, pcs⟩ := swapped_frame s job remap outcome
      refine mergeFrame pcs ?_ ?_ same.pending (by rw [pc]; rfl) rfl
      · cases outcome with
        | activationFailed at_ =>
            simp only [swapped]
            split <;> rfl
        | aborted | published => rfl
      · cases outcome with
        | activationFailed at_ =>
            simp only [swapped]
            split <;> rfl
        | aborted | published => rfl
  | configure => exact ok c

omit [InlineCodec] in
theorem callOk_init (snap : Snapshot) (hard : Nat) (merger : Bool) (log : List WalRecord) (c : Nat) :
    (init snap hard merger log).CallOk c := by
  simp [CallOk, init, Pc.shape, Status, heldCount, Pc.held]

end Sys

end Graphy
