import Graphy.Pipe.Proofs.Concat

/-!
# Legs that send batches

While the junction takes them, the batches of a leg are packed with its events in order; and
wherever it hangs up, the leg's thread ends with each of its stages finished once.
-/

namespace Graphy.Pipe

/-! ## Chains with more in their terminal -/

section Projections

variable {S S' : Type} {k : Sink S Event} {k' : Sink S' Event} {p : S' → S}

/-- The state of a chain, its terminal mapped. -/
def Chain.map (p : S' → S) : {ops : List Op} → Chain S' ops → Chain S ops
  | [], s => p s
  | _ :: _, st => (st.1, Chain.map p st.2)

theorem Chain.map_start (p : S' → S) (ops : List Op) (s : S') :
    Chain.map p (Chain.start ops s) = Chain.start ops (p s) := by
  induction ops with
  | nil => rfl
  | cons op ops ih => exact congrArg (Prod.mk (⟨op, 0⟩ : Stage)) ih

theorem Chain.terminal_map (p : S' → S) {ops : List Op} (st : Chain S' ops) :
    (Chain.map p st).terminal = p st.terminal := by
  induction ops with
  | nil => rfl
  | cons op ops ih => exact ih st.2

theorem chain_projects (projects : k'.Projects k p) (ops : List Op) :
    (chain ops k').Projects (chain ops k) (Chain.map p) := by
  induction ops with
  | nil => exact projects
  | cons op ops ih => exact Middleware.stage_projects ih

/-- What a leg does with a terminal that knows more. -/
theorem finish_projects (projects : k'.Projects k p) {ops : List Op} {s : S'} {input : List Event}
    {t : Chain S' ops}
    (finished : (chain ops k').finish (runLeg (chain ops k') (Chain.start ops s) input) = some t) :
    (chain ops k).finish (runLeg (chain ops k) (Chain.start ops (p s)) input) = some (Chain.map p t) := by
  have whole := chain_projects projects ops
  rw [← Chain.map_start, runLeg, ← whole.feed, ← whole.finish]
  exact congrArg (Option.map (Chain.map p)) finished

end Projections

namespace BatchSender

/-! ## Sending -/

/-- A sender that has been given some events: batches that are sent, and a pending one. -/
structure After (evs : List Event) (st : BatchSender) : Prop where
  takes : st.takes = none
  packed : ∃ (chunks : List (List Event)) (new : List Event), evs = chunks.flatten ++ new ∧
    st.sent = chunks.map EventBatch.pack ∧ st.batch = EventBatch.pack new

/-- A sender that has sent all it has been given. -/
def Sealed (evs : List Event) (st : BatchSender) : Prop :=
  ∃ chunks : List (List Event), evs = chunks.flatten ∧ st.sent = chunks.map EventBatch.pack

theorem After.nil : After [] (new none) := ⟨rfl, [], [], rfl, rfl, rfl⟩

theorem ship_none {st : BatchSender} (takes : st.takes = none) (pending : st.batch.len ≠ 0) :
    st.ship =
      ({ st with sent := st.sent ++ [st.batch], batch := EventBatch.empty }, .go) := by
  simp only [ship, if_neg pending, takes]

/-- The pending batch is sent. -/
theorem After.ship {evs : List Event} {st : BatchSender} (after : After evs st)
    (pending : st.batch.len ≠ 0) :
    st.ship.2 = .go ∧ ∃ chunks : List (List Event), evs = chunks.flatten ∧ st.ship.1 =
      ⟨none, chunks.map EventBatch.pack, EventBatch.empty, st.finished⟩ := by
  obtain ⟨takes, chunks, new, rfl, sent, batch⟩ := after
  rw [ship_none takes pending]
  refine ⟨rfl, chunks ++ [new], ?_, ?_⟩
  · rw [List.flatten_append, List.flatten_singleton]
  · rw [takes, sent, batch, List.map_append, List.map_singleton]

theorem After.event {evs : List Event} {st : BatchSender} (after : After evs st) (ev : Event) :
    After (evs ++ [ev]) (sink.event st ev).1 ∧ (sink.event st ev).2 = .go := by
  obtain ⟨takes, chunks, new, rfl, sent, batch⟩ := after
  have pushed : After (chunks.flatten ++ new ++ [ev]) { st with batch := st.batch.push ev } :=
    ⟨takes, chunks, new ++ [ev], List.append_assoc _ _ _, sent,
      by rw [EventBatch.pack_concat, ← batch]⟩
  by_cases full : maxItems ≤ (st.batch.push ev).len ∨ maxBytes ≤ (st.batch.push ev).byteLen
  · have pending : (st.batch.push ev).len ≠ 0 := by
      rw [EventBatch.len_push]
      exact Nat.succ_ne_zero _
    obtain ⟨go, chunks', whole, shipped⟩ := pushed.ship pending
    simp only [sink, if_pos full]
    refine ⟨?_, go⟩
    rw [shipped]
    exact ⟨rfl, chunks', [], by rw [whole, List.append_nil], rfl, rfl⟩
  · simp only [sink, if_neg full]
    exact ⟨pushed, trivial⟩

theorem after_feedAll (evs : List Event) : After evs (sink.feedAll (new none) evs) := by
  induction evs using List.reverseRecOn with
  | nil => exact After.nil
  | append_singleton evs ev ih =>
      rw [Sink.feedAll_concat]
      exact (ih.event ev).1

theorem After.finish {evs : List Event} {st : BatchSender} (after : After evs st) :
    ∃ t, sink.finish st = some t ∧ Sealed evs t := by
  refine ⟨_, rfl, ?_⟩
  by_cases none : st.batch.len = 0
  · obtain ⟨-, chunks, new, rfl, sent, batch⟩ := after
    have kept : st.ship.1.sent = st.sent := by simp only [BatchSender.ship, if_pos none]
    rw [batch, EventBatch.len_pack, List.length_eq_zero_iff] at none
    exact ⟨chunks, by rw [none, List.append_nil], kept.trans sent⟩
  · obtain ⟨-, chunks, whole, shipped⟩ := after.ship none
    exact ⟨chunks, whole, by rw [shipped]⟩

/-- A sender whose sends succeed stops no leg, and sends what it is given. -/
theorem denotes : sink.recording.Denotes Event.quad? (fun _ => True)
    (fun st => (quadsOf st.2, Sealed st.2 st.1)) (fun _ => True) (new none, [])
    fun xs => (xs, True) where
  result evs _ _ := by
    obtain ⟨t, finished, whole⟩ := (after_feedAll evs).finish
    refine ⟨(t, evs), ?_, Prod.ext rfl (eq_true whole)⟩
    rw [Sink.recording_feedAll]
    exact congrArg (Option.map fun s => (s, evs)) finished
  calm evs ev _ := by
    rw [Sink.recording_feedAll]
    exact ((after_feedAll evs).event ev).2
  stops evs ev x _ stop := by
    rw [Sink.recording_feedAll] at stop
    cases stop.symm.trans ((after_feedAll evs).event ev).2

/-! ## Finishing -/

theorem finished_ship (st : BatchSender) : st.ship.1.finished = st.finished := by
  simp only [ship]
  split
  · rfl
  · split <;> rfl

theorem finished_event (st : BatchSender) (ev : Event) :
    (sink.event st ev).1.finished = st.finished := by
  simp only [sink]
  split
  · exact finished_ship _
  · rfl

theorem finished_finish {st t : BatchSender} (finished : sink.finish st = some t) :
    t.finished = st.finished + 1 := by
  rw [← Option.some.inj finished]

end BatchSender

/-! ## Threads -/

section Threads

variable {before : List OpSpec} {input : List Event}

/-- The plan of a leg: batches of the quads that its operators make of the input. -/
theorem legThread_none (fits : FitsAll (fun _ => True) before (quadsOf input)) :
    ∃ leg, ∃ chunks : List (List Event), legThread before none input = some leg ∧
      leg.terminal.sent = chunks.map EventBatch.pack ∧
      quadsOf chunks.flatten = applyAll before (quadsOf input) := by
  obtain ⟨t, finished, result⟩ :=
    (chain_denotes BatchSender.denotes before).run (admissible_all input) fits
  obtain ⟨whole, packed⟩ := Prod.ext_iff.mp result
  obtain ⟨chunks, given, sent⟩ := of_eq_true packed
  refine ⟨Chain.map Prod.fst t, chunks,
    finish_projects (Sink.recording_projects BatchSender.sink) finished, ?_, ?_⟩
  · rw [Chain.terminal_map, sent]
  · rw [← given]
    exact whole

/-- Wherever the junction hangs up, the thread of a leg does not panic. -/
theorem legThread_some (safe : Safe before (quadsOf input)) (takes : Option Nat) :
    ∃ leg, legThread before takes input = some leg := by
  have total := chain_total (k := BatchSender.sink) (s := BatchSender.new takes)
    (fun _ => ⟨_, rfl⟩) before
  rcases (chain (buildOps before) BatchSender.sink).feed_cases
    (Chain.start (buildOps before) (BatchSender.new takes)) input
    with all | ⟨front, ev, rest, rfl, -, fed⟩
  · rw [legThread, runLeg, all]
    exact total input safe
  · rw [legThread, runLeg, fed]
    refine total _ (safe_part safe ?_)
    have whole : front ++ ev :: rest = (front ++ [ev]) ++ rest := by
      rw [List.append_assoc, List.singleton_append]
    rw [whole, quadsOf_append _ rest]
    exact List.prefix_append _ _

/-- A thread that has ended has finished each of its stages once. -/
theorem legThread_finished {takes : Option Nat} {leg : Chain BatchSender (buildOps before)}
    (ended : legThread before takes input = some leg) :
    ∀ n ∈ leg.terminal.finished :: leg.finished, n = 1 := by
  intro n member
  rcases List.mem_cons.mp member with rfl | member
  · have closed := terminal_finish BatchSender.finished BatchSender.finished_event (· + 1)
      (fun _ _ finished => BatchSender.finished_finish finished) ended
    have fed := Sink.feed_same (fun leg : Chain BatchSender (buildOps before) =>
      leg.terminal.finished) (terminal_event _ BatchSender.finished_event _)
      (Chain.start _ (BatchSender.new takes)) input
    rw [closed, runLeg, fed, terminal_start]
    rfl
  · exact finished_once ended n member

end Threads

end Graphy.Pipe
