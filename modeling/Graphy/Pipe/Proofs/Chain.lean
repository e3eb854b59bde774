import Graphy.Pipe.Proofs.Slices
import Graphy.Pipe.Proofs.Tree

/-!
# Chains

A chain before a sink that means a function means the composition, and finishing the chain
finishes each of its stages once.
-/

namespace Graphy.Pipe

variable {S γ : Type} {k : Sink S Event}

theorem quad?_quad (q : QuadRef) : Event.quad? (.quad q) = some q := rfl

/-- Every operator implements its function on lists. -/
theorem implements_spec (spec : OpSpec) (finished : Nat) : ∃ passed holds,
    stage.Implements ⟨spec.build, finished⟩ spec.Fits spec.apply passed holds := by
  cases spec with
  | skip n unit => exact ⟨_, _, implements_skip n unit finished⟩
  | head n unit => exact ⟨_, _, implements_head n unit finished⟩
  | tail n unit => exact ⟨_, _, implements_tail n unit finished⟩
  | tree => exact ⟨_, _, implements_tree finished⟩

theorem chain_denotes {ok : Event → Prop} {out : S → γ} {last : List QuadRef → Prop} {s : S}
    {f : List QuadRef → γ} (denotes : k.Denotes Event.quad? ok out last s f)
    (specs : List OpSpec) :
    (chain (buildOps specs) k).Denotes Event.quad? ok (fun st => out st.terminal)
      (FitsAll last specs) (Chain.start (buildOps specs) s) fun xs => f (applyAll specs xs) := by
  induction specs with
  | nil => exact denotes
  | cons spec specs ih =>
      obtain ⟨passed, holds, implements⟩ := implements_spec spec 0
      exact implements.stage quad?_quad ih

theorem fitsAll_iff {last : List QuadRef → Prop} {specs : List OpSpec} {xs : List QuadRef} :
    FitsAll last specs xs ↔ FitsAll (fun _ => True) specs xs ∧ last (applyAll specs xs) := by
  induction specs generalizing xs with
  | nil => rw [FitsAll, FitsAll, applyAll, true_and]
  | cons spec specs ih => rw [FitsAll, FitsAll, applyAll, ih, and_assoc]

/-! ## Finishing -/

/-- No event finishes a stage. -/
theorem finished_event (ops : List Op) (st : Chain S ops) (ev : Event) :
    ((chain ops k).event st ev).1.finished = st.finished := by
  induction ops with
  | nil => rfl
  | cons op ops ih =>
      cases item : ev.quad? with
      | none =>
          rw [chain, Middleware.stage_none item]
          exact congrArg (st.1.finished :: ·) (ih st.2)
      | some q =>
          rw [chain, Middleware.stage_some item]
          refine congrArg (st.1.finished :: ·) ?_
          change Chain.finished (ite _ st.2 ((chain ops k).event st.2 ev).1) = _
          split
          · rfl
          · exact ih st.2

theorem finished_finish {ops : List Op} {st t : Chain S ops}
    (finished : (chain ops k).finish st = some t) : t.finished = st.finished.map (· + 1) := by
  induction ops with
  | nil => rfl
  | cons op ops ih =>
      simp only [chain, Middleware.stage, Option.bind_eq_bind, Option.bind_eq_some_iff,
        Option.pure_def, Option.some.injEq] at finished
      obtain ⟨s, flushed, s', closed, rfl⟩ := finished
      have inner := ih closed
      rw [Sink.flush_same _ (finished_event ops) flushed] at inner
      exact congrArg ((st.1.finished + 1) :: ·) inner

theorem finished_start (ops : List Op) (s : S) :
    (Chain.start ops s).finished = ops.map fun _ => 0 := by
  induction ops with
  | nil => rfl
  | cons op ops ih => exact congrArg (0 :: ·) ih

theorem finishes_once {ops : List Op} {st t : Chain S ops}
    (finished : (chain ops k).finish st = some t)
    (unfinished : st.finished = ops.map fun _ => 0) : ∀ n ∈ t.finished, n = 1 := by
  rw [finished_finish finished, unfinished]
  intro n member
  rw [List.map_map, List.mem_map] at member
  obtain ⟨_, -, rfl⟩ := member
  rfl

/-- A leg that is run and finished has finished each stage once. -/
theorem finished_once {ops : List Op} {s : S} {input : List Event} {t : Chain S ops}
    (finished : (chain ops k).finish (runLeg (chain ops k) (Chain.start ops s) input) = some t) :
    ∀ n ∈ t.finished, n = 1 :=
  finishes_once finished ((Sink.feed_same _ (finished_event ops) _ _).trans (finished_start ops s))

/-- What no event changes behind a chain, no event before it changes. -/
theorem terminal_event (m : S → γ) (same : ∀ s ev, m (k.event s ev).1 = m s) (ops : List Op)
    (st : Chain S ops) (ev : Event) :
    m ((chain ops k).event st ev).1.terminal = m st.terminal := by
  induction ops with
  | nil => exact same st ev
  | cons op ops ih =>
      cases item : ev.quad? with
      | none =>
          rw [chain, Middleware.stage_none item]
          exact ih st.2
      | some q =>
          rw [chain, Middleware.stage_some item]
          change m (Chain.terminal (ite _ st.2 ((chain ops k).event st.2 ev).1)) = _
          split
          · rfl
          · exact ih st.2

theorem terminal_finish (m : S → γ) (same : ∀ s ev, m (k.event s ev).1 = m s) (next : γ → γ)
    (closes : ∀ s t, k.finish s = some t → m t = next (m s)) {ops : List Op} {st t : Chain S ops}
    (finished : (chain ops k).finish st = some t) : m t.terminal = next (m st.terminal) := by
  induction ops with
  | nil => exact closes st t finished
  | cons op ops ih =>
      simp only [chain, Middleware.stage, Option.bind_eq_bind, Option.bind_eq_some_iff,
        Option.pure_def, Option.some.injEq] at finished
      obtain ⟨s, flushed, s', closed, rfl⟩ := finished
      have inner : m s.terminal = m st.2.terminal :=
        Sink.flush_same (fun st : Chain S ops => m st.terminal) (terminal_event m same ops) flushed
      exact (ih closed).trans (congrArg next inner)

theorem terminal_start (ops : List Op) (s : S) : (Chain.start ops s).terminal = s := by
  induction ops with
  | nil => rfl
  | cons op ops ih => exact ih

/-! ## Stopping -/

theorem halted_nil (specs : List OpSpec) : halted specs [] = false := by
  induction specs with
  | nil => rfl
  | cons spec specs ih =>
      cases spec with
      | skip n unit =>
          rw [halted, OpSpec.apply, units_nil, List.drop_nil, List.flatten_nil, ih]
      | head n unit =>
          rw [halted, OpSpec.apply, units_nil, List.take_nil, List.flatten_nil, ih, Bool.or_false]
          cases unit with
          | quads => rfl
          | subjects => rw [filled, units_nil, List.length_nil, decide_eq_false (Nat.not_lt_zero n)]
      | tail n unit => rfl
      | tree => rfl

/-- The verdict of a chain on a quad: that of its first operator, or that of the rest on what the
operator has passed on. -/
theorem verdict_cons {spec : OpSpec} {dom : List QuadRef → Prop}
    {h passed : List QuadRef → List QuadRef} {holds : List QuadRef → Stage → Prop}
    (implements : stage.Implements ⟨spec.build, 0⟩ dom h passed holds) (specs : List OpSpec) (s : S)
    (evs : List Event) (inside : dom (quadsOf evs)) (q : QuadRef) :
    ∃ o evs', holds (quadsOf evs) o ∧ quadsOf evs' = passed (quadsOf evs) ∧
      ((chain (buildOps (spec :: specs)) k).event ((chain (buildOps (spec :: specs)) k).feedAll
        (Chain.start (buildOps (spec :: specs)) s) evs) (.quad q)).2 =
      if (stage.step o q).2 = .swallow then .go
      else if (stage.step o q).2 = .forward then ((chain (buildOps specs) k).event
        ((chain (buildOps specs) k).feedAll (Chain.start (buildOps specs) s) evs') (.quad q)).2
      else .stop := by
  obtain ⟨o, evs', state, -, held, seen⟩ :=
    implements.feedAll (k := chain (buildOps specs) k) Event.quad (Chain.start (buildOps specs) s) inside
  refine ⟨o, evs', held, seen, ?_⟩
  have verdict := congrArg (fun st =>
    ((stage.stage Event.quad? .quad (chain (buildOps specs) k)).event st (.quad q)).2) state
  refine verdict.trans ?_
  rw [Middleware.stage_some (quad?_quad q)]

/-- The quad that fills a head of the chain is answered with the verdict to stop. -/
theorem stop_of_halted {s : S} (specs : List OpSpec) (evs : List Event) (q : QuadRef)
    (now : halted specs (quadsOf evs ++ [q]) = true) (before : halted specs (quadsOf evs) = false) :
    ((chain (buildOps specs) k).event
      ((chain (buildOps specs) k).feedAll (Chain.start (buildOps specs) s) evs) (.quad q)).2
        = .stop := by
  induction specs generalizing evs with
  | nil => cases now
  | cons spec specs ih =>
      cases spec with
      | tail n unit => cases now
      | tree => cases now
      | skip n unit =>
          obtain ⟨⟨_, finished⟩, evs', ⟨op, rfl, after⟩, seen, verdict⟩ :=
            verdict_cons (k := k) (implements_skip n unit 0) specs s evs trivial q
          have act : (stage.step ⟨.skip op, finished⟩ q).2 = _ := (after.event q).2
          rw [verdict, act]
          rw [halted, skip_concat] at now
          rw [halted, ← seen] at before
          split at now
          case isTrue past =>
            rw [if_pos past, if_neg (by decide), if_pos rfl]
            rw [← seen] at now
            exact ih evs' now before
          case isFalse =>
            rw [← seen, before] at now
            cases now
      | head n unit =>
          obtain ⟨⟨_, finished⟩, evs', ⟨op, rfl, after⟩, seen, verdict⟩ :=
            verdict_cons (k := k) (implements_head n unit 0) specs s evs trivial q
          rw [verdict]
          change (if (op.event q).2 = .swallow then Flow.go
            else if (op.event q).2 = .forward then _ else _) = _
          rcases (after.event q).2 with ⟨act, room, one⟩ | ⟨act, -, -⟩ | ⟨act, -, -⟩
          · rw [act, if_neg (by decide), if_pos rfl]
            rw [halted, room, Bool.false_or, one, ← seen] at now
            rw [halted, Bool.or_eq_false_iff, ← seen] at before
            exact ih evs' now before.2
          · rw [act, if_neg (by decide), if_neg (by decide)]
          · rw [act, if_neg (by decide), if_neg (by decide)]

/-- Whether an operator keeps everything until it is finished. -/
def Op.buffers : Op → Bool
  | .skip _ | .head _ => false
  | .tail _ | .tree _ => true

theorem buffers_step (st : Stage) (q : QuadRef) :
    (stage.step st q).1.op.buffers = st.op.buffers := by
  obtain ⟨op, finished⟩ := st
  cases op <;> rfl

theorem swallows_of_buffers {st : Stage} (buffers : st.op.buffers = true) (q : QuadRef) :
    (stage.step st q).2 = .swallow := by
  obtain ⟨op, finished⟩ := st
  cases op with
  | skip op => cases buffers
  | head op => cases buffers
  | tail op =>
      change (op.event q).2 = .swallow
      rw [Tail.event]
      split
      · rfl
      · cases op.unit <;> rfl
  | tree op =>
      change (op.event q).2 = .swallow
      simp only [Tree.event]
      split <;> rfl

/-- Behind an operator that buffers, nothing is seen and nobody stops. -/
theorem go_of_buffers {spec : OpSpec} (buffers : spec.build.buffers = true) (specs : List OpSpec)
    (s : S) (evs : List Event) (q : QuadRef) :
    ((chain (buildOps (spec :: specs)) k).event ((chain (buildOps (spec :: specs)) k).feedAll
      (Chain.start (buildOps (spec :: specs)) s) evs) (.quad q)).2 = .go := by
  let st := (chain (buildOps (spec :: specs)) k).feedAll (Chain.start (buildOps (spec :: specs)) s) evs
  have same : ∀ (st : Stage × Chain S (buildOps specs)) ev,
      ((stage.stage Event.quad? .quad (chain (buildOps specs) k)).event st ev).1.1.op.buffers
        = st.1.op.buffers := fun st ev => by
    cases item : ev.quad? with
    | none => rw [Middleware.stage_none item]
    | some q =>
        rw [Middleware.stage_some item]
        exact buffers_step st.1 q
  have here : st.1.op.buffers = true :=
    (Sink.feedAll_same (fun st : Stage × Chain S (buildOps specs) => st.1.op.buffers) same _ evs).trans
      buffers
  have verdict : ((stage.stage Event.quad? .quad (chain (buildOps specs) k)).event st (.quad q)).2 =
      _ := congrArg Prod.snd (Middleware.stage_some (quad?_quad q))
  exact verdict.trans (if_pos (swallows_of_buffers here q))

/-- A quad answered with the verdict to stop halts the chain. -/
theorem halted_of_stop {s : S} (calm : ∀ evs q, (k.event (k.feedAll s evs) (.quad q)).2 = .go)
    (specs : List OpSpec) (evs : List Event) (q : QuadRef)
    (stop : ((chain (buildOps specs) k).event ((chain (buildOps specs) k).feedAll
      (Chain.start (buildOps specs) s) evs) (.quad q)).2 = .stop) :
    halted specs (quadsOf evs ++ [q]) = true := by
  induction specs generalizing evs with
  | nil =>
      have go := calm evs q
      rw [show (k.event (k.feedAll s evs) (.quad q)).2 = .stop from stop] at go
      cases go
  | cons spec specs ih =>
      cases spec with
      | tail n unit =>
          rw [go_of_buffers rfl] at stop
          cases stop
      | tree =>
          rw [go_of_buffers rfl] at stop
          cases stop
      | skip n unit =>
          obtain ⟨⟨_, finished⟩, evs', ⟨op, rfl, after⟩, seen, verdict⟩ :=
            verdict_cons (k := k) (implements_skip n unit 0) specs s evs trivial q
          have act : (stage.step ⟨.skip op, finished⟩ q).2 = _ := (after.event q).2
          rw [verdict, act] at stop
          rw [halted, skip_concat]
          split at stop
          case isTrue past =>
            rw [if_pos past, ← seen]
            rw [if_neg (by decide), if_pos rfl] at stop
            exact ih evs' stop
          case isFalse =>
            rw [if_pos rfl] at stop
            cases stop
      | head n unit =>
          obtain ⟨⟨_, finished⟩, evs', ⟨op, rfl, after⟩, seen, verdict⟩ :=
            verdict_cons (k := k) (implements_head n unit 0) specs s evs trivial q
          rw [verdict] at stop
          change (if (op.event q).2 = .swallow then Flow.go
            else if (op.event q).2 = .forward then _ else _) = _ at stop
          rw [halted, Bool.or_eq_true]
          rcases (after.event q).2 with ⟨act, -, one⟩ | ⟨-, full, -⟩ | ⟨-, full, -⟩
          · rw [act, if_neg (by decide), if_pos rfl] at stop
            rw [one, ← seen]
            exact Or.inr (ih evs' stop)
          · exact Or.inl full
          · exact Or.inl full

/-- A halted chain stays halted. -/
theorem halted_append {specs : List OpSpec} {xs : List QuadRef} (now : halted specs xs = true)
    (ys : List QuadRef) : halted specs (xs ++ ys) = true := by
  induction specs generalizing xs ys with
  | nil => cases now
  | cons spec specs ih =>
      cases spec with
      | tail n unit => cases now
      | tree => cases now
      | skip n unit =>
          obtain ⟨more, whole⟩ := (implements_skip n unit 0).ahead xs ys
          rw [halted, whole]
          exact ih now more
      | head n unit =>
          obtain ⟨more, whole⟩ := (implements_head n unit 0).ahead xs ys
          rw [halted, Bool.or_eq_true] at now ⊢
          rw [whole]
          exact now.imp (filled_append · ys) (ih · more)

/-! ## Cancelled legs -/

/-- Copies read back: that is all a leg needs not to panic, wherever its source stops. -/
def Safe : List OpSpec → List QuadRef → Prop
  | [], _ => True
  | .skip n unit :: specs, xs => Safe specs ((OpSpec.skip n unit).apply xs)
  | .head n unit :: specs, xs => Safe specs ((OpSpec.head n unit).apply xs)
  | .tail n _ :: _, xs => n = 0 ∨ ∀ q ∈ xs, Packable q
  | .tree :: _, xs => ∀ q ∈ xs, Packable q

theorem safe_of_packable {specs : List OpSpec} {xs : List QuadRef}
    (packable : ∀ q ∈ xs, Packable q) : Safe specs xs := by
  induction specs generalizing xs with
  | nil => exact trivial
  | cons spec specs ih =>
      cases spec with
      | skip n unit =>
          exact ih fun q member =>
            packable q ((flatten_sublist (List.drop_sublist n _)).subset member)
      | head n unit =>
          exact ih fun q member =>
            packable q ((flatten_sublist (List.take_sublist n _)).subset member)
      | tail n unit => exact Or.inr packable
      | tree => exact packable

theorem safe_of_fitsAll {last : List QuadRef → Prop} {specs : List OpSpec} {xs : List QuadRef}
    (fits : FitsAll last specs xs) : Safe specs xs := by
  induction specs generalizing xs with
  | nil => exact trivial
  | cons spec specs ih =>
      cases spec with
      | skip n unit => exact ih fits.2
      | head n unit => exact ih fits.2
      | tail n unit => exact fits.1
      | tree => exact fun q member => (fits.1.1 q member).1

/-- A source may stop anywhere. -/
theorem safe_part {specs : List OpSpec} {xs ys : List QuadRef} (safe : Safe specs xs)
    (part : ys <+: xs) : Safe specs ys := by
  induction specs generalizing xs ys with
  | nil => exact trivial
  | cons spec specs ih =>
      obtain ⟨zs, rfl⟩ := part
      cases spec with
      | skip n unit =>
          obtain ⟨more, whole⟩ := (implements_skip n unit 0).ahead ys zs
          exact ih safe ⟨more, whole.symm⟩
      | head n unit =>
          obtain ⟨more, whole⟩ := (implements_head n unit 0).ahead ys zs
          exact ih safe ⟨more, whole.symm⟩
      | tail n unit =>
          exact safe.imp_right fun packable q member => packable q (List.mem_append_left zs member)
      | tree => exact fun q member => safe q (List.mem_append_left zs member)

/-- Finishing a chain whose copies read back does not panic, whatever has been pushed. -/
theorem chain_total {s : S} (total : ∀ evs, ∃ t, k.finish (k.feedAll s evs) = some t)
    (specs : List OpSpec) (evs : List Event) (safe : Safe specs (quadsOf evs)) :
    ∃ t, (chain (buildOps specs) k).finish
      ((chain (buildOps specs) k).feedAll (Chain.start (buildOps specs) s) evs) = some t := by
  induction specs generalizing evs with
  | nil => exact total evs
  | cons spec specs ih =>
      cases spec with
      | skip n unit =>
          exact (implements_skip n unit 0).total (fun evs => ih evs) quad?_quad trivial
            fun ys part => safe_part safe part
      | head n unit =>
          exact (implements_head n unit 0).total (fun evs => ih evs) quad?_quad trivial
            fun ys part => safe_part safe part
      | tail n unit =>
          refine (implements_tail n unit 0).total (fun evs => ih evs) quad?_quad safe
            fun ys part => safe_of_packable fun q member => ?_
          have kept := part.subset member
          rcases safe with rfl | packable
          · rw [tail_zero] at kept
            exact absurd kept List.not_mem_nil
          · exact packable q ((tail_sublist n unit _).subset kept)
      | tree =>
          obtain ⟨h, inside, implements⟩ := implements_tree_copies 0
          exact implements.total (fun evs => ih evs) quad?_quad safe fun ys part =>
            safe_of_packable fun q member => safe q (inside _ safe q (part.subset member))

end Graphy.Pipe
