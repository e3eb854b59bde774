import Graphy.Pipe.Proofs.Sender

/-!
# Merge

At any moment of a merge, what the junction has given the shared downstream, followed by what it
is at, what is in the channel and any interleaving of what the legs have still to send, is an
interleaving of the legs' results.
-/

namespace Graphy.Pipe

section Invariant

variable {S γ : Type} {k : Sink S Event}

/-- The junction while the legs' results are in flight. -/
structure MergeAfter (k : Sink S Event) (s : S) (results : List (List QuadRef)) (m : Merge S) :
    Prop where
  fed : m.tail = k.feedAll s m.given
  left : ∃ (current : List Event) (chunks : List (List Event)) (rests : List (List (List Event))),
    m.current = current.map some ∧ m.channel = chunks.map EventBatch.pack ∧
    m.legs = rests.map (List.map EventBatch.pack) ∧
    (∀ evs ∈ chunks ++ rests.flatten, ∀ q ∈ quadsOf evs, NamesGraph q) ∧
    ∀ zs, Interleaves (rests.map fun rest => quadsOf rest.flatten) zs →
      Interleaves results (quadsOf m.given ++ (quadsOf current ++ (quadsOf chunks.flatten ++ zs)))
  stopped : m.stopped = true →
    ∃ front ev, m.given = front ++ [ev] ∧ (k.event (k.feedAll s front) ev).2 = .stop

theorem MergeAfter.start {s : S} {rests : List (List (List Event))}
    (named : ∀ evs ∈ rests.flatten, ∀ q ∈ quadsOf evs, NamesGraph q) :
    MergeAfter k s (rests.map fun rest => quadsOf rest.flatten)
      (Merge.start (rests.map (List.map EventBatch.pack)) s) where
  fed := rfl
  left := ⟨[], [], rests, rfl, rfl, rfl, named, fun _ interleaves => interleaves⟩
  stopped halted := by cases halted

/-- The downstream is given the next event. -/
theorem MergeAfter.give {s t t' : S} {results : List (List QuadRef)}
    {legs : List (List EventBatch)} {channel : List EventBatch} {ev : Event}
    {rest : List (Option Event)} {given : List Event} {flow : Flow}
    (after : MergeAfter k s results ⟨legs, channel, some ev :: rest, t, false, given⟩)
    (event : k.event t ev = (t', flow)) :
    MergeAfter k s results ⟨legs, channel, rest, t', flow == .stop, given ++ [ev]⟩ := by
  obtain ⟨fed, ⟨current, chunks, rests, hcurrent, hchannel, hlegs, named, interleaves⟩, -⟩ := after
  obtain ⟨ev', current', rfl, same, hrest⟩ := List.map_eq_cons_iff.mp hcurrent.symm
  cases Option.some.inj same
  change t = k.feedAll s given at fed
  refine ⟨?_, ⟨current', chunks, rests, hrest.symm, hchannel, hlegs, named, fun zs inner => ?_⟩,
    fun halted => ⟨given, ev, rfl, ?_⟩⟩
  · rw [k.feedAll_concat, ← fed, event]
  · have whole : Interleaves results (quadsOf given ++ (quadsOf ([ev] ++ current')
      ++ (quadsOf chunks.flatten ++ zs))) := interleaves zs inner
    change Interleaves results (quadsOf (given ++ [ev]) ++ _)
    rw [quadsOf_append] at whole
    rwa [quadsOf_append, List.append_assoc, ← List.append_assoc (quadsOf [ev])]
  · rw [← fed, event]
    exact beq_iff_eq.mp halted

/-- Whatever the threads do next, the results stay in flight, unless the junction takes up a batch
whose offsets have wrapped. -/
theorem MergeAfter.step {s : S} {results : List (List QuadRef)} {m m' : Merge S}
    (after : MergeAfter k s results m) (safe : m.Exact) (step : Merge.Step k m m') :
    MergeAfter k s results m' := by
  cases step with
  | event flow => exact after.give flow
  | stop flow => exact after.give flow
  | @send front back batch rest _ _ _ _ _ room =>
      obtain ⟨fed, ⟨current, chunks, rests, hcurrent, hchannel, legs, named, interleaves⟩, stopped⟩ :=
        after
      obtain ⟨before, others, rfl, rfl, hothers⟩ := List.append_eq_map_iff.mp legs
      obtain ⟨plan, behind, rfl, hplan, rfl⟩ := List.map_eq_cons_iff.mp hothers
      obtain ⟨evs, later, rfl, rfl, rfl⟩ := List.map_eq_cons_iff.mp hplan
      refine ⟨fed, ⟨current, chunks ++ [evs], before ++ later :: behind, hcurrent, ?_, ?_, ?_, ?_⟩,
        stopped⟩
      · rw [List.map_append, List.map_singleton]
        exact congrArg (· ++ [EventBatch.pack evs]) hchannel
      · rw [List.map_append, List.map_cons]
      · intro evs' member
        refine named evs' ?_
        simp only [List.mem_append, List.flatten_append, List.flatten_cons, List.mem_cons,
          List.not_mem_nil, or_false, List.cons_append] at member ⊢
        tauto
      · intro zs inner
        have whole := interleaves (quadsOf evs ++ zs)
        rw [List.map_append, List.map_cons, List.flatten_cons, quadsOf_append] at whole
        rw [List.map_append, List.map_cons] at inner
        rw [List.flatten_append, List.flatten_singleton, quadsOf_append _ evs, List.append_assoc]
        exact whole (inner.takes (quadsOf evs))
  | @recv legs batch channel t given =>
      obtain ⟨fed, ⟨current, chunks, rests, hcurrent, hchannel, legs, named, interleaves⟩, stopped⟩ :=
        after
      have idle : current = [] := List.map_eq_nil_iff.mp hcurrent.symm
      obtain ⟨now, later, rfl, rfl, rfl⟩ := List.map_eq_cons_iff.mp hchannel.symm
      have small : (EventBatch.pack now).byteLen < 2 ^ 32 := safe rfl _ rfl
      have reads := EventBatch.events_pack small (named now List.mem_cons_self)
      refine ⟨fed, ⟨now, later, rests, reads, rfl, legs,
        fun evs member => named evs (List.mem_cons_of_mem now member), fun zs inner => ?_⟩, stopped⟩
      have whole := interleaves zs inner
      rwa [idle, List.flatten_cons, quadsOf_append now, List.append_assoc] at whole

/-- Every run keeps the results in flight. -/
theorem MergeAfter.run {s : S} {results : List (List QuadRef)} {m m' : Merge S}
    (after : MergeAfter k s results m)
    (steps : Relation.ReflTransGen (fun m m' => m.Exact ∧ Merge.Step k m m') m m') :
    MergeAfter k s results m' := by
  induction steps with
  | refl => exact after
  | tail _ step ih => exact ih.step step.1 step.2

/-- The junction never waits for nothing. -/
theorem MergeAfter.progress {s : S} {results : List (List QuadRef)} {m : Merge S}
    (after : MergeAfter k s results m) : m.Ended ∨ ∃ m', Merge.Step k m m' := by
  obtain ⟨-, ⟨current, -, -, hcurrent, -⟩, -⟩ := after
  obtain ⟨legs, channel, cur, t, stopped, given⟩ := m
  change cur = current.map some at hcurrent
  subst hcurrent
  cases stopped with
  | true => exact Or.inl (Or.inl rfl)
  | false =>
      cases current with
      | cons ev rest =>
          rcases flow : k.event t ev with ⟨t', _ | _⟩
          · exact Or.inr ⟨_, Merge.Step.event flow⟩
          · exact Or.inr ⟨_, Merge.Step.stop flow⟩
      | nil =>
          cases channel with
          | cons batch channel => exact Or.inr ⟨_, Merge.Step.recv⟩
          | nil =>
              by_cases done : ∀ leg ∈ legs, leg = []
              · exact Or.inl (Or.inr ⟨done, rfl, rfl⟩)
              · simp only [not_forall] at done
                obtain ⟨leg, member, busy⟩ := done
                obtain ⟨front, back, rfl⟩ := List.append_of_mem member
                obtain ⟨batch, rest, rfl⟩ := List.exists_cons_of_ne_nil busy
                exact Or.inr ⟨_, Merge.Step.send (by decide)⟩

/-- Where the junction hangs up, the downstream has been given enough of some interleaving. -/
theorem MergeAfter.ended {out : S → γ} {dom : List QuadRef → Prop} {s : S}
    {f : List QuadRef → γ} (denotes : k.Denotes Event.quad? (fun _ => True) out dom s f)
    {results : List (List QuadRef)} {m : Merge S} (after : MergeAfter k s results m)
    (ended : m.Ended) (fits : dom (quadsOf m.given)) :
    ∃ t zs, k.finish m.tail = some t ∧ Interleaves results zs ∧ out t = f zs := by
  obtain ⟨fed, ⟨current, chunks, rests, hcurrent, hchannel, legs, -, interleaves⟩, stopped⟩ := after
  obtain ⟨t, finished, result⟩ := denotes.result m.given (admissible_all _) fits
  rw [fed]
  rcases ended with halted | ⟨drained, empty, idle⟩
  · obtain ⟨front, ev, whole, stop⟩ := stopped halted
    rw [whole] at fits result
    have enough := denotes.stop_event stop (by rwa [List.append_nil]) (quadsOf current
      ++ (quadsOf chunks.flatten ++ (rests.map fun rest => quadsOf rest.flatten).flatten))
    rw [List.append_nil] at enough
    refine ⟨t, _, finished, interleaves _ (Interleaves.flatten _), result.trans ?_⟩
    rw [whole]
    exact enough.2
  · have none : ∀ rest ∈ rests, rest = [] := fun rest member => by
      have here := drained _ (legs ▸ List.mem_map_of_mem member)
      exact List.map_eq_nil_iff.mp here
    have whole := interleaves [] (.nil fun xs member => by
      obtain ⟨rest, hrest, rfl⟩ := List.mem_map.mp member
      rw [none rest hrest]
      rfl)
    rw [idle] at hcurrent
    rw [empty] at hchannel
    rw [List.map_eq_nil_iff.mp hcurrent.symm, List.map_eq_nil_iff.mp hchannel.symm] at whole
    change Interleaves results (quadsOf m.given ++ ([] ++ ([] ++ []))) at whole
    rw [List.append_nil, List.append_nil, List.append_nil] at whole
    exact ⟨t, _, finished, whole, result⟩

/-! ## Ends -/

/-- The events still to be handled, and the hands the batches have still to go through. -/
def Merge.left (m : Merge S) : Nat :=
  (m.legs.map fun leg => (leg.map fun batch => batch.len + 2).sum).sum
    + (m.channel.map fun batch => batch.len + 1).sum + m.current.length

theorem Merge.Step.left_lt {m m' : Merge S} (step : Merge.Step k m m') : m'.left < m.left := by
  cases step with
  | send room =>
      simp only [Merge.left, List.map_append, List.map_cons, List.sum_append, List.sum_cons,
        List.map_nil, List.sum_nil]
      omega
  | recv =>
      simp only [Merge.left, List.map_cons, List.sum_cons, EventBatch.events, List.length_map,
        EventBatch.len, List.length_nil]
      omega
  | event flow =>
      simp only [Merge.left, List.length_cons]
      omega
  | stop flow =>
      simp only [Merge.left, List.length_cons]
      omega

/-- Every merge ends. -/
theorem merge_wellFounded (k : Sink S Event) :
    WellFounded fun m' m : Merge S => Merge.Step k m m' :=
  Subrelation.wf (fun step => step.left_lt) (measure Merge.left).wf

end Invariant

/-! ## Runs -/

section Runs

variable {before after : List OpSpec} {inputs : List (List Event)}

theorem mapM_option {α β : Type} {g : α → Option β} {P : α → β → Prop} {l : List α}
    (each : ∀ a ∈ l, ∃ b, g a = some b ∧ P a b) :
    ∃ bs, l.mapM g = some bs ∧ List.Forall₂ P l bs := by
  induction l with
  | nil => exact ⟨[], rfl, .nil⟩
  | cons a l ih =>
      obtain ⟨b, found, holds⟩ := each a List.mem_cons_self
      obtain ⟨bs, others, all⟩ := ih fun a' member => each a' (List.mem_cons_of_mem a member)
      refine ⟨b :: bs, ?_, .cons holds all⟩
      rw [List.mapM_cons, found, others]
      rfl

/-- The legs' plans are packed with events whose quads are the legs' results. -/
theorem mergePlans_eq
    (fits : ∀ input ∈ inputs, FitsAll (fun _ => True) before (quadsOf input)) :
    ∃ rests : List (List (List Event)),
      mergePlans before inputs = some (rests.map (List.map EventBatch.pack)) ∧
      rests.map (fun rest => quadsOf rest.flatten)
        = inputs.map fun input => applyAll before (quadsOf input) := by
  obtain ⟨plans, sent, each⟩ : ∃ plans, mergePlans before inputs = some plans ∧
      List.Forall₂ (fun input plan => ∃ rest : List (List Event),
        plan = rest.map EventBatch.pack ∧ quadsOf rest.flatten = applyAll before (quadsOf input))
        inputs plans := by
    refine mapM_option fun input member => ?_
    obtain ⟨leg, chunks, ran, sent, whole⟩ := legThread_none (fits input member)
    exact ⟨leg.terminal.sent, by rw [ran, Option.map_some], chunks, sent, whole⟩
  rw [sent]
  clear sent fits
  induction each with
  | nil => exact ⟨[], rfl, rfl⟩
  | cons first _ ih =>
      obtain ⟨rest, rfl, whole⟩ := first
      obtain ⟨rests, hplans, results⟩ := ih
      refine ⟨rest :: rests, ?_, ?_⟩
      · rw [List.map_cons, Option.some.inj hplans]
      · rw [List.map_cons, List.map_cons, results, whole]

/-- Whatever each leg had still to send, the threads end. -/
theorem mergeLegs_eq
    (fits : ∀ input ∈ inputs, FitsAll (fun _ => True) before (quadsOf input))
    (left : List (List EventBatch)) :
    ∃ legs, mergeLegs before inputs left = some legs ∧
      ∀ leg ∈ legs, ∀ n ∈ leg.terminal.finished :: leg.finished, n = 1 := by
  obtain ⟨legs, ended, each⟩ : ∃ legs, mergeLegs before inputs left = some legs ∧
      List.Forall₂ (fun _ leg => ∀ n ∈ leg.terminal.finished :: leg.finished, n = 1)
        (inputs.zip left) legs := by
    refine mapM_option fun pair member => ?_
    have fit := fits pair.1 (List.of_mem_zip member).1
    obtain ⟨whole, -, ran, -⟩ := legThread_none fit
    obtain ⟨leg, ended⟩ := legThread_some (safe_of_fitsAll fit)
      (some (whole.terminal.sent.length - pair.2.length))
    refine ⟨leg, ?_, legThread_finished ended⟩
    simp only [ran, ended, Option.bind_eq_bind, Option.bind_some]
  refine ⟨legs, ended, fun leg member => ?_⟩
  clear ended
  generalize inputs.zip left = pairs at each
  induction each with
  | nil => exact absurd member List.not_mem_nil
  | cons once _ ih =>
      rcases List.mem_cons.mp member with rfl | member
      · exact once
      · exact ih member

/-- What is in flight in a run of which every step was taken with offsets that fit. -/
theorem mergeAfter_of_reaches
    (fits : ∀ input ∈ inputs, FitsAll (fun xs => ∀ q ∈ xs, NamesGraph q) before (quadsOf input))
    {m : Merge (Chain Terminal (buildOps after))}
    (reaches : MergeReaches before after Merge.Exact inputs m) :
    MergeAfter (chain (buildOps after) Terminal.sink) (Chain.start _ Terminal.new)
      (inputs.map fun input => applyAll before (quadsOf input)) m := by
  obtain ⟨plans, planned, run⟩ := reaches
  obtain ⟨rests, planned', results⟩ :=
    mergePlans_eq fun input member => (fitsAll_iff.mp (fits input member)).1
  cases Option.some.inj (planned.symm.trans planned')
  rw [← results]
  refine (MergeAfter.start fun evs member q hq => ?_).run run
  obtain ⟨rest, hrest, here⟩ := List.mem_flatten.mp member
  have ofLeg : quadsOf rest.flatten ∈ inputs.map fun input => applyAll before (quadsOf input) :=
    results ▸ List.mem_map_of_mem hrest
  obtain ⟨input, hinput, same⟩ := List.mem_map.mp ofLeg
  refine (fitsAll_iff.mp (fits input hinput)).2 q ?_
  rw [same, quadsOf, List.mem_filterMap]
  obtain ⟨ev, hev, isQuad⟩ := List.mem_filterMap.mp hq
  exact ⟨ev, List.mem_flatten.mpr ⟨evs, here, hev⟩, isQuad⟩

theorem mergeFinish_eq
    (fits : ∀ input ∈ inputs, FitsAll (fun xs => ∀ q ∈ xs, NamesGraph q) before (quadsOf input))
    {m : Merge (Chain Terminal (buildOps after))}
    (reaches : MergeReaches before after Merge.Exact inputs m) (ended : m.Ended)
    (fit : FitsAll (fun _ => True) after (quadsOf m.given)) :
    ∃ ran zs, mergeFinish before after inputs m = some ran ∧
      Interleaves (inputs.map fun input => applyAll before (quadsOf input)) zs ∧
      ran.Delivers (applyAll after zs) := by
  have there := mergeAfter_of_reaches fits reaches
  obtain ⟨legs, threads, once⟩ :=
    mergeLegs_eq (fun input member => (fitsAll_iff.mp (fits input member)).1) m.legs
  obtain ⟨t, zs, closed, whole, result⟩ := there.ended (tail_denotes after) ended fit
  have unfinished : m.tail.finished = (buildOps after).map fun _ => 0 := by
    rw [there.fed]
    exact (Sink.feedAll_same _ (finished_event _) _ m.given).trans (finished_start _ _)
  refine ⟨⟨t.terminal, legs.flatMap (fun leg => leg.terminal.finished :: leg.finished)
    ++ t.finished⟩, zs, ?_, whole, congrArg Terminal.quads result,
    congrArg Terminal.finished result, fun n member => ?_⟩
  · simp only [mergeFinish, threads, closed, Option.bind_eq_bind, Option.bind_some,
      Option.pure_def]
  · rcases List.mem_append.mp member with ofLeg | shared
    · obtain ⟨leg, hleg, here⟩ := List.mem_flatMap.mp ofLeg
      exact once leg hleg n here
    · exact finishes_once closed unfinished n shared

end Runs

end Graphy.Pipe
