import Graphy.Pipe.Proofs.Chain

/-!
# Runs without a junction and through `concat`

What runs beneath a leg is a sink too: its events go to the shared downstream, and finishing it
runs the legs that are left and finishes the downstream.
-/

namespace Graphy.Pipe

variable {S S' γ : Type} {ok : Event → Prop}

/-! ## The terminal -/

theorem quadsOf_append (evs evs' : List Event) :
    quadsOf (evs ++ evs') = quadsOf evs ++ quadsOf evs' := List.filterMap_append

theorem terminal_feedAll (st : Terminal) (evs : List Event) :
    Terminal.sink.feedAll st evs = { st with quads := st.quads ++ quadsOf evs } := by
  induction evs using List.reverseRecOn with
  | nil =>
      rw [quadsOf, List.filterMap_nil, List.append_nil]
      rfl
  | append_singleton evs ev ih =>
      rw [Sink.feedAll_concat, ih, quadsOf_append, ← List.append_assoc]
      cases ev <;> rfl

/-- The terminal is given the quads, and is finished once. -/
theorem terminal_denotes :
    Terminal.sink.Denotes Event.quad? ok id (fun _ => True) Terminal.new
      fun xs => (⟨xs, 1⟩ : Terminal) where
  result evs _ _ := ⟨⟨quadsOf evs, 1⟩, by rw [terminal_feedAll]; rfl, rfl⟩
  calm _ _ _ := rfl
  stops _ _ _ _ stop := by cases stop

theorem admissible_all (evs : List Event) : Admissible Event.quad? (fun _ => True) evs :=
  fun _ _ _ => trivial

/-- The shared downstream is the composition of its operators' functions. -/
theorem tail_denotes (after : List OpSpec) :
    (chain (buildOps after) Terminal.sink).Denotes Event.quad? (fun _ => True)
      (fun st => st.terminal) (FitsAll (fun _ => True) after)
      (Chain.start (buildOps after) Terminal.new)
      fun xs => (⟨applyAll after xs, 1⟩ : Terminal) :=
  chain_denotes terminal_denotes after

theorem runSingle_eq {before : List OpSpec} {input : List Event}
    (fits : FitsAll (fun _ => True) before (quadsOf input)) :
    ∃ ran, runSingle before input = some ran ∧
      ran.Delivers (applyAll before (quadsOf input)) := by
  obtain ⟨t, finished, result⟩ := (tail_denotes before).run (admissible_all input) fits
  refine ⟨⟨t.terminal, t.finished⟩, ?_, congrArg Terminal.quads result,
    congrArg Terminal.finished result, finished_once finished⟩
  simp only [runSingle, runLeg, finished, Option.bind_eq_bind, Option.bind_some, Option.pure_def]

/-! ## Sinks beneath a leg -/

theorem feed_congr {k k' : Sink S Event} (events : k.event = k'.event) (s : S)
    (evs : List Event) : k.feed s evs = k'.feed s evs := by
  induction evs generalizing s with
  | nil => rfl
  | cons ev evs ih =>
      rw [Sink.feed, Sink.feed, events]
      split
      · rfl
      · exact ih _

theorem flush_congr {k k' : Sink S Event} (events : k.event = k'.event) (s : S)
    (xs : List (Option QuadRef)) : k.flush .quad s xs = k'.flush .quad s xs := by
  induction xs generalizing s with
  | nil => rfl
  | cons x xs ih =>
      cases x with
      | none => rfl
      | some x =>
          rw [Sink.flush, Sink.flush, events]
          split
          · rfl
          · exact ih _

theorem chain_event_congr {k k' : Sink S Event} (events : k.event = k'.event) (ops : List Op) :
    (chain ops k).event = (chain ops k').event := by
  induction ops with
  | nil => exact events
  | cons op ops ih => simp only [chain, Middleware.stage, ih]

/-- Sinks that differ in how they finish: a chain before the one that does nothing leaves what the
other one would have finished. -/
theorem chain_finish {k k' : Sink S Event} (events : k.event = k'.event)
    (defers : ∀ s, k.finish s = some s) {ops : List Op} {st t : Chain S ops}
    (finished : (chain ops k').finish st = some t) :
    ∃ leg, (chain ops k).finish st = some leg ∧ k'.finish leg.terminal = some t.terminal := by
  induction ops with
  | nil => exact ⟨st, defers st, finished⟩
  | cons op ops ih =>
      simp only [chain, Middleware.stage, Option.bind_eq_bind, Option.bind_eq_some_iff,
        Option.pure_def, Option.some.injEq] at finished
      obtain ⟨s, flushed, s', closed, rfl⟩ := finished
      obtain ⟨leg, deferred, behind⟩ := ih closed
      refine ⟨(stage.close st.1, leg), ?_, behind⟩
      rw [← flush_congr (chain_event_congr events ops)] at flushed
      simp only [chain, Middleware.stage, flushed, deferred, Option.bind_eq_bind, Option.bind_some,
        Option.pure_def]

/-! ## Concat -/

/-- The verdicts of the shared downstream are those that halt its operators. -/
structure Verdicts (k : Sink S Event) (s : S) (after : List OpSpec) : Prop where
  calm : ∀ evs ev, ev.quad? = none → (k.event (k.feedAll s evs) ev).2 = .go
  halted : ∀ evs q, (k.event (k.feedAll s evs) (.quad q)).2 = .stop →
    halted after (quadsOf evs ++ [q]) = true
  stops : ∀ evs q, Pipe.halted after (quadsOf evs ++ [q]) = true →
    Pipe.halted after (quadsOf evs) = false → (k.event (k.feedAll s evs) (.quad q)).2 = .stop

theorem tail_verdicts (after : List OpSpec) :
    Verdicts (chain (buildOps after) Terminal.sink) (Chain.start (buildOps after) Terminal.new)
      after where
  calm := (tail_denotes after).calm
  halted := halted_of_stop (fun _ _ => rfl) after
  stops evs q := stop_of_halted after evs q

/-- What is beneath a leg has the state of the downstream and knows whether it is halted. -/
theorem defer_feedAll {k : Sink S Event} {s : S} {after : List OpSpec}
    (verdicts : Verdicts k s after) {evs : List Event} (going : halted after (quadsOf evs) = false)
    (evs' : List Event) : (Defer.sink k).feedAll ⟨k.feedAll s evs, false⟩ evs' =
      ⟨k.feedAll s (evs ++ evs'), halted after (quadsOf (evs ++ evs'))⟩ := by
  induction evs' using List.reverseRecOn with
  | nil =>
      rw [List.append_nil, going]
      rfl
  | append_singleton evs' ev ih =>
      rw [Sink.feedAll_concat, ih, ← List.append_assoc, k.feedAll_concat]
      change (⟨_, _ || (k.event (k.feedAll s (evs ++ evs')) ev).2 == .stop⟩ : Defer S) = _
      congr 1
      cases ev with
      | declared name iri =>
          rw [verdicts.calm _ _ rfl, quadsOf, quadsOf, filterMap_concat_none rfl]
          exact Bool.or_false _
      | quad q =>
          have one : quadsOf (evs ++ evs' ++ [.quad q]) = quadsOf (evs ++ evs') ++ [q] :=
            filterMap_concat_some (quad?_quad q)
          rw [one]
          change (halted after (quadsOf (evs ++ evs')) || _) = _
          cases before : halted after (quadsOf (evs ++ evs')) with
          | true => rw [halted_append before, Bool.true_or]
          | false =>
              rw [Bool.false_or]
              cases now : halted after (quadsOf (evs ++ evs') ++ [q]) with
              | true => rw [verdicts.stops _ q now before]; rfl
              | false =>
                  refine beq_eq_false_iff_ne.mpr fun stop => ?_
                  rw [verdicts.halted _ q stop] at now
                  cases now

/-- Running the legs that are left and finishing the downstream. -/
def remaining (before : List OpSpec) (k : Sink S Event) (inputs : List (List Event)) :
    Sink (Defer S) Event where
  event := (Defer.sink k).event
  finish st :=
    if st.downstreamStopped then (k.finish st.inner).map fun t => ⟨t, true⟩
    else do
      let (_, st) ← concatLegs before k inputs st
      let t ← k.finish st.inner
      return ⟨t, st.downstreamStopped⟩

theorem concatLegs_finished {before : List OpSpec} {k : Sink S Event}
    {inputs : List (List Event)} {st st' : Defer S} {finished : List Nat}
    (ran : concatLegs before k inputs st = some (finished, st')) : ∀ n ∈ finished, n = 1 := by
  induction inputs generalizing st st' finished with
  | nil =>
      obtain ⟨rfl, -⟩ := Prod.mk.inj (Option.some.inj ran)
      exact fun n member => absurd member List.not_mem_nil
  | cons input inputs ih =>
      simp only [concatLegs, Option.bind_eq_bind, Option.bind_eq_some_iff] at ran
      obtain ⟨leg, closed, rest⟩ := ran
      have once := finished_once closed
      split at rest
      case isTrue =>
        obtain ⟨rfl, -⟩ := Prod.mk.inj (Option.some.inj rest)
        exact once
      case isFalse =>
        obtain ⟨⟨finished', st''⟩, others, same⟩ := Option.bind_eq_some_iff.mp rest
        obtain ⟨rfl, -⟩ := Prod.mk.inj (Option.some.inj same)
        intro n member
        rcases List.mem_append.mp member with here | there
        · exact once n here
        · exact ih others n there

/-- What no event changes in the shared downstream, the legs leave as it is. -/
theorem concatLegs_same {before : List OpSpec} {k : Sink S Event} {m : S → γ}
    (same : ∀ s ev, m (k.event s ev).1 = m s) {inputs : List (List Event)} {st st' : Defer S}
    {finished : List Nat} (ran : concatLegs before k inputs st = some (finished, st')) :
    m st'.inner = m st.inner := by
  induction inputs generalizing st st' finished with
  | nil => rw [(Prod.mk.inj (Option.some.inj ran)).2]
  | cons input inputs ih =>
      simp only [concatLegs, Option.bind_eq_bind, Option.bind_eq_some_iff] at ran
      obtain ⟨leg, closed, rest⟩ := ran
      have deferred : ∀ st ev, m ((Defer.sink k).event st ev).1.inner = m st.inner :=
        fun st ev => same st.inner ev
      let shared : Defer S → γ := fun st => m st.inner
      let behind : Chain (Defer S) (buildOps before) → γ := fun leg => shared leg.terminal
      have flushed := terminal_finish shared deferred id
        (fun _ _ kept => (congrArg shared (Option.some.inj kept)).symm) closed
      have fed := Sink.feed_same behind (terminal_event shared deferred _) (Chain.start _ st) input
      have here : m leg.terminal.inner = m st.inner :=
        (flushed.trans fed).trans (congrArg shared (terminal_start _ st))
      split at rest
      case isTrue => rw [← (Prod.mk.inj (Option.some.inj rest)).2, here]
      case isFalse =>
        obtain ⟨⟨finished', st''⟩, others, same'⟩ := Option.bind_eq_some_iff.mp rest
        rw [← (Prod.mk.inj (Option.some.inj same')).2, ih others, here]

section Concat

variable {k : Sink S Event} {out : S → γ} {dom : List QuadRef → Prop} {s : S}
variable {f : List QuadRef → γ} {before : List OpSpec}

/-- All that the shared downstream is given when it has been given some quads and the legs are
still to come. -/
def whole (before after : List OpSpec) (inputs : List (List Event)) (ys : List QuadRef) :
    List QuadRef := ys ++ legsOut before (started before after ys inputs)

/-- What the legs copy fits, when the shared downstream has been given some quads. -/
def LegsFit (before after : List OpSpec) (inputs : List (List Event)) (ys : List QuadRef) : Prop :=
  ∀ input ∈ started before after ys inputs, FitsAll (fun _ => True) before (quadsOf input)

theorem started_of_halted {after : List OpSpec} {ys : List QuadRef}
    (now : halted after ys = true) (inputs : List (List Event)) :
    started before after ys inputs = [] := by
  cases inputs with
  | nil => rfl
  | cons input inputs => rw [started, if_pos now]

theorem whole_of_halted {after : List OpSpec} {ys : List QuadRef} (now : halted after ys = true)
    (inputs : List (List Event)) : whole before after inputs ys = ys := by
  rw [whole, started_of_halted now, legsOut, List.flatMap_nil, List.append_nil]

variable {after : List OpSpec} (denotes : k.Denotes Event.quad? (fun _ => True) out dom s f)
variable (verdicts : Verdicts k s after)
include denotes verdicts

/-- What is beneath a leg means what the downstream makes of the leg's quads and of those of the
legs that are started after it. -/
theorem remaining_denotes {inputs : List (List Event)}
    (runs : ∀ evs, halted after (quadsOf evs) = false → LegsFit before after inputs (quadsOf evs) →
      dom (whole before after inputs (quadsOf evs)) →
      ∃ finished st t, concatLegs before k inputs ⟨k.feedAll s evs, false⟩ = some (finished, st) ∧
        k.finish st.inner = some t ∧ out t = f (whole before after inputs (quadsOf evs)))
    {evs : List Event} (going : halted after (quadsOf evs) = false) :
    (remaining before k inputs).Denotes Event.quad? (fun _ => True) (fun st => out st.inner)
      (fun ys => LegsFit before after inputs (quadsOf evs ++ ys) ∧
        dom (whole before after inputs (quadsOf evs ++ ys))) ⟨k.feedAll s evs, false⟩
      fun ys => f (whole before after inputs (quadsOf evs ++ ys)) := by
  have state : ∀ evs', (remaining before k inputs).feedAll ⟨k.feedAll s evs, false⟩ evs' =
      ⟨k.feedAll s (evs ++ evs'), halted after (quadsOf (evs ++ evs'))⟩ :=
    defer_feedAll verdicts going
  constructor
  · rintro evs' - ⟨fit, inside⟩
    rw [state]
    have joined : quadsOf evs ++ evs'.filterMap Event.quad? = quadsOf (evs ++ evs') :=
      (quadsOf_append evs evs').symm
    rw [joined] at fit inside ⊢
    cases now : halted after (quadsOf (evs ++ evs')) with
    | false =>
        obtain ⟨finished, st, t, ran, closed, result⟩ := runs (evs ++ evs') now fit inside
        refine ⟨⟨t, st.downstreamStopped⟩, ?_, result⟩
        simp only [remaining, Bool.false_eq_true, if_false, ran, closed, Option.bind_eq_bind,
          Option.bind_some, Option.pure_def]
    | true =>
        rw [whole_of_halted now] at inside ⊢
        obtain ⟨t, closed, result⟩ := denotes.result (evs ++ evs') (admissible_all _) inside
        exact ⟨⟨t, true⟩, by simp only [remaining, if_true, closed, Option.map_some], result⟩
  · intro evs' ev none
    rw [state]
    exact denotes.calm (evs ++ evs') ev none
  · rintro evs' (q | ⟨name, iri⟩) x item stop ys ⟨-, inside⟩ zs
    case declared => cases item
    cases Option.some.inj item
    rw [state] at stop
    -- The downstream is halted by this quad, so no leg is started after it.
    have now := verdicts.halted (evs ++ evs') q stop
    have all : ∀ ys, quadsOf evs ++ (evs'.filterMap Event.quad? ++ q :: ys)
        = quadsOf (evs ++ evs') ++ [q] ++ ys := fun ys => by
      rw [quadsOf_append, quadsOf, quadsOf]
      simp only [List.append_assoc, List.singleton_append]
    rw [all, whole_of_halted (halted_append now ys), List.append_assoc, List.singleton_append]
      at inside
    rw [all, all, whole_of_halted (halted_append now ys), whole_of_halted (halted_append now zs)]
    simp only [List.append_assoc, List.singleton_append]
    obtain ⟨inside', same⟩ := denotes.stops (evs ++ evs') (.quad q) q rfl stop ys inside zs
    refine ⟨⟨?_, inside'⟩, same⟩
    rw [← List.singleton_append, ← List.append_assoc, LegsFit,
      started_of_halted (halted_append now zs)]
    exact fun input member => absurd member List.not_mem_nil

/-- The legs one after another give the downstream the quads of those that are started. -/
theorem concatLegs_eq {inputs : List (List Event)} :
    ∀ evs, halted after (quadsOf evs) = false → LegsFit before after inputs (quadsOf evs) →
      dom (whole before after inputs (quadsOf evs)) →
      ∃ finished st t, concatLegs before k inputs ⟨k.feedAll s evs, false⟩ = some (finished, st) ∧
        k.finish st.inner = some t ∧ out t = f (whole before after inputs (quadsOf evs)) := by
  induction inputs with
  | nil =>
      intro evs _ _ inside
      rw [whole, started, legsOut, List.flatMap_nil, List.append_nil] at inside ⊢
      obtain ⟨t, closed, result⟩ := denotes.result evs (admissible_all evs) inside
      exact ⟨[], ⟨k.feedAll s evs, false⟩, t, rfl, closed, result⟩
  | cons input inputs ih =>
      intro evs going fit inside
      have first : started before after (quadsOf evs) (input :: inputs) = input ::
          started before after (quadsOf evs ++ applyAll before (quadsOf input)) inputs := by
        rw [started, if_neg (by rw [going]; decide)]
      have all : whole before after (input :: inputs) (quadsOf evs) =
          whole before after inputs (quadsOf evs ++ applyAll before (quadsOf input)) := by
        rw [whole, whole, first, legsOut, List.flatMap_cons, ← legsOut, List.append_assoc]
      rw [LegsFit, first] at fit
      rw [all] at inside ⊢
      have beneath := remaining_denotes denotes verdicts ih going
      obtain ⟨t, finished, result⟩ := (chain_denotes beneath before).run (admissible_all input)
        (fitsAll_iff.mpr ⟨fit input List.mem_cons_self,
          fun input member => fit input (List.mem_cons_of_mem _ member), inside⟩)
      -- The leg itself defers what finishing the sink beneath it does.
      have events : (Defer.sink k).event = (remaining before k inputs).event := rfl
      rw [← feed_congr (chain_event_congr events _)] at finished
      obtain ⟨leg, closed, rest⟩ := chain_finish events (fun _ => rfl) finished
      simp only [concatLegs, runLeg, closed, Option.bind_eq_bind, Option.bind_some]
      cases stopped : leg.terminal.downstreamStopped with
      | true =>
          simp only [remaining, stopped, if_true, Option.map_eq_some_iff] at rest
          obtain ⟨t', closed', same⟩ := rest
          refine ⟨_, _, t', if_pos rfl, closed', ?_⟩
          rw [← same] at result
          exact result
      | false =>
          simp only [remaining, stopped, Bool.false_eq_true, if_false, Option.bind_eq_bind,
            Option.bind_eq_some_iff, Option.pure_def, Option.some.injEq] at rest
          obtain ⟨⟨finished', st'⟩, others, t', closed', same⟩ := rest
          refine ⟨leg.finished ++ finished', st', t', ?_, closed', ?_⟩
          · rw [if_neg Bool.false_ne_true, others]
            rfl
          · rw [← same] at result
            exact result

end Concat

/-- A halted chain makes nothing of what it is given after that. -/
theorem applyAll_of_halted {specs : List OpSpec} {xs : List QuadRef}
    (now : halted specs xs = true) (ys : List QuadRef) :
    applyAll specs (xs ++ ys) = applyAll specs xs := by
  induction specs generalizing xs ys with
  | nil => cases now
  | cons spec specs ih =>
      cases spec with
      | tail n unit => cases now
      | tree => cases now
      | skip n unit =>
          obtain ⟨more, front⟩ := (implements_skip n unit 0).ahead xs ys
          rw [applyAll, applyAll, front]
          exact ih now more
      | head n unit =>
          rw [halted, Bool.or_eq_true] at now
          rw [applyAll, applyAll]
          rcases now with full | now
          · rw [head_filled full]
          · obtain ⟨more, front⟩ := (implements_head n unit 0).ahead xs ys
            rw [front]
            exact ih now more

/-- The legs that are not started make no difference. -/
theorem applyAll_started (before after : List OpSpec) (inputs : List (List Event))
    (ys : List QuadRef) : applyAll after (ys ++ legsOut before (started before after ys inputs)) =
      applyAll after (ys ++ legsOut before inputs) := by
  induction inputs generalizing ys with
  | nil => rfl
  | cons input inputs ih =>
      cases now : halted after ys with
      | true => rw [applyAll_of_halted now, applyAll_of_halted now]
      | false =>
          rw [started, if_neg (by rw [now]; decide), legsOut, legsOut, List.flatMap_cons,
            List.flatMap_cons, ← legsOut, ← legsOut, ← List.append_assoc, ← List.append_assoc]
          exact ih _

theorem runConcat_eq {before after : List OpSpec} {inputs : List (List Event)}
    (legs : ∀ input ∈ started before after [] inputs, FitsAll (fun _ => True) before (quadsOf input))
    (fits : FitsAll (fun _ => True) after (legsOut before (started before after [] inputs))) :
    ∃ ran, runConcat before after inputs = some ran ∧
      ran.Delivers (applyAll after (legsOut before inputs)) := by
  obtain ⟨finished, st, t, ran, closed, result⟩ :=
    concatLegs_eq (tail_denotes after) (tail_verdicts after) []
      (halted_nil after) legs fits
  have same := applyAll_started before after inputs []
  rw [List.nil_append, List.nil_append] at same
  rw [whole, quadsOf, List.filterMap_nil, List.nil_append, same] at result
  refine ⟨⟨t.terminal, finished ++ t.finished⟩, ?_, congrArg Terminal.quads result,
    congrArg Terminal.finished result, fun n member => ?_⟩
  · change (concatLegs before _ inputs ⟨(chain (buildOps after) Terminal.sink).feedAll
      (Chain.start _ Terminal.new) [], false⟩ >>= _) = _
    rw [ran]
    change ((chain (buildOps after) Terminal.sink).finish st.inner >>= _) = _
    rw [closed]
    rfl
  · rcases List.mem_append.mp member with leg | shared
    · exact concatLegs_finished ran n leg
    · refine finishes_once closed ?_ n shared
      exact (concatLegs_same (finished_event _) ran).trans (finished_start _ _)

end Graphy.Pipe
