import Mathlib.Data.List.Basic
import Mathlib.Data.List.Induction

/-!
# Push sinks

A sink takes events one by one and answers each with a verdict; then it is finished.  A source
stops pushing at the first verdict that tells it to.  A sink means a function on lists when what
it holds after being finished is that function of the items pushed, and when a verdict to stop
comes only once further items make no difference.  A stage before a sink composes its own
function with that of the sink.
-/

namespace Graphy

/-- Downstream verdict. -/
inductive Flow where
  | go
  | stop
deriving DecidableEq, Repr

/-- A stage that consumes events.  Finishing it may panic. -/
structure Sink (S α : Type) where
  event : S → α → S × Flow
  finish : S → Option S

variable {S α β γ O : Type}

namespace Sink

/-- The state after some events, whatever the verdicts. -/
def feedAll (k : Sink S α) (s : S) (evs : List α) : S := evs.foldl (fun s ev => (k.event s ev).1) s

/-- A source pushes until it is told to stop. -/
def feed (k : Sink S α) : S → List α → S
  | s, [] => s
  | s, ev :: evs =>
      match k.event s ev with
      | (s, .stop) => s
      | (s, .go) => k.feed s evs

/-- Buffered items are pushed until the verdict is to stop.  One that cannot be given panics. -/
def flush (k : Sink S α) (wrap : β → α) : S → List (Option β) → Option S
  | s, [] => some s
  | _, none :: _ => none
  | s, some x :: xs =>
      match k.event s (wrap x) with
      | (s, .stop) => some s
      | (s, .go) => k.flush wrap s xs

theorem feedAll_append (k : Sink S α) (s : S) (evs evs' : List α) :
    k.feedAll s (evs ++ evs') = k.feedAll (k.feedAll s evs) evs' := List.foldl_append

theorem feedAll_concat (k : Sink S α) (s : S) (evs : List α) (ev : α) :
    k.feedAll s (evs ++ [ev]) = (k.event (k.feedAll s evs) ev).1 := by
  rw [feedAll_append]
  rfl

/-- A source pushes everything, or up to an event that stops it. -/
theorem feed_cases (k : Sink S α) (s : S) (evs : List α) :
    k.feed s evs = k.feedAll s evs ∨
      ∃ before ev after, evs = before ++ ev :: after ∧
        (k.event (k.feedAll s before) ev).2 = .stop ∧
        k.feed s evs = k.feedAll s (before ++ [ev]) := by
  induction evs generalizing s with
  | nil => exact Or.inl rfl
  | cons ev evs ih =>
      rw [feed]
      rcases step : k.event s ev with ⟨s', flow⟩
      cases flow with
      | stop =>
          refine Or.inr ⟨[], ev, evs, rfl, by rw [feedAll, List.foldl_nil, step], ?_⟩
          rw [List.nil_append, feedAll, List.foldl_cons, List.foldl_nil, step]
      | go =>
          have first : k.feedAll s (ev :: evs) = k.feedAll s' evs := by
            rw [feedAll, List.foldl_cons, step]
            rfl
          rcases ih s' with all | ⟨before, ev', after, split, stops, fed⟩
          · exact Or.inl (all.trans first.symm)
          · have shift : ∀ evs', k.feedAll s (ev :: evs') = k.feedAll s' evs' := fun evs' => by
              rw [feedAll, List.foldl_cons, step]
              rfl
            refine Or.inr ⟨ev :: before, ev', after, by rw [split, List.cons_append], ?_, ?_⟩
            · rw [shift, stops]
            · rw [List.cons_append, shift]
              exact fed

theorem feedAll_same {k : Sink S α} (m : S → γ) (same : ∀ s ev, m (k.event s ev).1 = m s) (s : S)
    (evs : List α) : m (k.feedAll s evs) = m s := by
  induction evs generalizing s with
  | nil => rfl
  | cons ev evs ih => exact (ih _).trans (same s ev)

/-- What no event changes, no source changes. -/
theorem feed_same {k : Sink S α} (m : S → γ) (same : ∀ s ev, m (k.event s ev).1 = m s) (s : S)
    (evs : List α) : m (k.feed s evs) = m s := by
  induction evs generalizing s with
  | nil => rfl
  | cons ev evs ih =>
      have one := same s ev
      rw [feed]
      rcases step : k.event s ev with ⟨s', flow⟩
      rw [step] at one
      cases flow with
      | stop => exact one
      | go => exact (ih s').trans one

theorem flush_same {k : Sink S α} (m : S → γ) (same : ∀ s ev, m (k.event s ev).1 = m s)
    {wrap : β → α} {xs : List (Option β)} {s t : S} (flushed : k.flush wrap s xs = some t) :
    m t = m s := by
  induction xs generalizing s with
  | nil => rw [Option.some.inj flushed]
  | cons x xs ih =>
      cases x with
      | none => cases flushed
      | some x =>
          have one := same s (wrap x)
          rw [flush] at flushed
          rcases step : k.event s (wrap x) with ⟨s', flow⟩
          rw [step] at flushed one
          cases flow with
          | stop => rw [← Option.some.inj flushed, one]
          | go => rw [ih flushed, one]

/-- What is flushed is pushed, up to some item. -/
theorem flush_feedAll (k : Sink S α) (wrap : β → α) (s : S) (xs : List β) :
    ∃ ys, ys <+: xs ∧ k.flush wrap s (xs.map some) = some (k.feedAll s (ys.map wrap)) := by
  induction xs generalizing s with
  | nil => exact ⟨[], List.prefix_refl _, rfl⟩
  | cons x xs ih =>
      rw [List.map_cons, flush]
      rcases step : k.event s (wrap x) with ⟨s', flow⟩
      cases flow with
      | stop =>
          refine ⟨[x], by simp, ?_⟩
          rw [List.map_singleton, feedAll, List.foldl_cons, List.foldl_nil, step]
      | go =>
          obtain ⟨ys, part, flushed⟩ := ih s'
          refine ⟨x :: ys, List.cons_prefix_cons.mpr ⟨rfl, part⟩, ?_⟩
          rw [List.map_cons, feedAll, List.foldl_cons, step]
          exact flushed

end Sink

/-! ## Recording -/

namespace Sink

/-- The sink that also keeps what it is given. -/
def recording (k : Sink S α) : Sink (S × List α) α where
  event st ev := (((k.event st.1 ev).1, st.2 ++ [ev]), (k.event st.1 ev).2)
  finish st := (k.finish st.1).map fun s => (s, st.2)

theorem recording_feedAll (k : Sink S α) (s : S) (evs : List α) :
    k.recording.feedAll (s, []) evs = (k.feedAll s evs, evs) := by
  induction evs using List.reverseRecOn with
  | nil => rfl
  | append_singleton evs ev ih => rw [feedAll_concat, ih, feedAll_concat]; rfl

/-- One sink does what the other one does, with more in its state. -/
structure Projects {S' : Type} (k' : Sink S' α) (k : Sink S α) (p : S' → S) : Prop where
  event : ∀ s ev, ((p (k'.event s ev).1, (k'.event s ev).2) : S × Flow) = k.event (p s) ev
  finish : ∀ s, (k'.finish s).map p = k.finish (p s)

theorem recording_projects (k : Sink S α) : k.recording.Projects k Prod.fst where
  event _ _ := rfl
  finish st := by
    change ((k.finish st.1).map fun s => (s, st.2)).map Prod.fst = _
    rw [Option.map_map]
    exact congrFun Option.map_id_fun (k.finish st.1)

section Projects

variable {S' : Type} {k' : Sink S' α} {k : Sink S α} {p : S' → S} (projects : k'.Projects k p)
include projects

theorem Projects.feed (s : S') (evs : List α) : p (k'.feed s evs) = k.feed (p s) evs := by
  induction evs generalizing s with
  | nil => rfl
  | cons ev evs ih =>
      have one := projects.event s ev
      rw [Sink.feed, Sink.feed]
      rcases step : k'.event s ev with ⟨t, flow⟩
      rw [step] at one
      rw [← one]
      cases flow with
      | stop => rfl
      | go => exact ih t

theorem Projects.flush (wrap : β → α) (s : S') (xs : List (Option β)) :
    (k'.flush wrap s xs).map p = k.flush wrap (p s) xs := by
  induction xs generalizing s with
  | nil => rfl
  | cons x xs ih =>
      cases x with
      | none => rfl
      | some x =>
          have one := projects.event s (wrap x)
          rw [Sink.flush, Sink.flush]
          rcases step : k'.event s (wrap x) with ⟨t, flow⟩
          rw [step] at one
          rw [← one]
          cases flow with
          | stop => rfl
          | go => exact ih t

end Projects

end Sink

/-! ## What a sink means -/

section Meaning

variable (items : α → Option β) (ok : α → Prop)

/-- Events of which those that are no items are admissible. -/
def Admissible (evs : List α) : Prop := ∀ ev ∈ evs, items ev = none → ok ev

/-- The sink makes of the items pushed from the state on what the function says, for lists of a
domain. -/
structure Sink.Denotes (k : Sink S α) (out : S → γ) (dom : List β → Prop) (s : S)
    (f : List β → γ) : Prop where
  result : ∀ evs, Admissible items ok evs → dom (evs.filterMap items) →
    ∃ t, k.finish (k.feedAll s evs) = some t ∧ out t = f (evs.filterMap items)
  calm : ∀ evs ev, items ev = none → (k.event (k.feedAll s evs) ev).2 = .go
  stops : ∀ evs ev x, items ev = some x → (k.event (k.feedAll s evs) ev).2 = .stop →
    ∀ ys, dom (evs.filterMap items ++ x :: ys) → ∀ zs, dom (evs.filterMap items ++ x :: zs) ∧
      f (evs.filterMap items ++ x :: ys) = f (evs.filterMap items ++ x :: zs)

variable {items} {ok}

theorem Admissible.nil : Admissible items ok [] := fun _ member => absurd member List.not_mem_nil

theorem Admissible.of_sublist {evs evs' : List α} (admissible : Admissible items ok evs)
    (part : evs'.Sublist evs) : Admissible items ok evs' :=
  fun ev member => admissible ev (part.subset member)

theorem Admissible.append {evs evs' : List α} (admissible : Admissible items ok evs)
    (admissible' : Admissible items ok evs') : Admissible items ok (evs ++ evs') :=
  fun ev member => (List.mem_append.mp member).elim (admissible ev) (admissible' ev)

theorem Admissible.item (ok : α → Prop) {ev : α} {x : β} (item : items ev = some x) :
    Admissible items ok [ev] := fun ev' member none => by
  rw [List.mem_singleton.mp member, item] at none
  cases none

theorem filterMap_concat_some {evs : List α} {ev : α} {x : β} (item : items ev = some x) :
    (evs ++ [ev]).filterMap items = evs.filterMap items ++ [x] := by
  rw [List.filterMap_append, List.filterMap_cons_some item, List.filterMap_nil]

theorem filterMap_concat_none {evs : List α} {ev : α} (item : items ev = none) :
    (evs ++ [ev]).filterMap items = evs.filterMap items := by
  rw [List.filterMap_append, List.filterMap_cons_none item, List.filterMap_nil, List.append_nil]

namespace Sink.Denotes

variable {k : Sink S α} {out : S → γ} {dom : List β → Prop} {s : S} {f : List β → γ}
variable (denotes : k.Denotes items ok out dom s f)
include denotes

/-- Later states mean what the function makes of the items before and after. -/
theorem after {evs : List α} (admissible : Admissible items ok evs) :
    k.Denotes items ok out (fun ys => dom (evs.filterMap items ++ ys)) (k.feedAll s evs)
      fun ys => f (evs.filterMap items ++ ys) where
  result evs' admissible' inside := by
    rw [← List.filterMap_append] at inside ⊢
    rw [← k.feedAll_append]
    exact denotes.result (evs ++ evs') (admissible.append admissible') inside
  calm evs' ev item := by
    rw [← k.feedAll_append]
    exact denotes.calm (evs ++ evs') ev item
  stops evs' ev x item stop ys inside zs := by
    rw [← k.feedAll_append] at stop
    rw [← List.append_assoc, ← List.filterMap_append] at inside ⊢
    rw [← List.append_assoc, ← List.filterMap_append]
    exact denotes.stops (evs ++ evs') ev x item stop ys inside zs

/-- After an event that stops the source it makes no difference what is pushed. -/
theorem stop_event {evs : List α} {ev : α} {ys : List β}
    (stop : (k.event (k.feedAll s evs) ev).2 = .stop)
    (inside : dom ((evs ++ [ev]).filterMap items ++ ys)) (zs : List β) :
    dom ((evs ++ [ev]).filterMap items ++ zs) ∧
      f ((evs ++ [ev]).filterMap items ++ ys) = f ((evs ++ [ev]).filterMap items ++ zs) := by
  cases item : items ev with
  | none =>
      rw [denotes.calm evs ev item] at stop
      cases stop
  | some x =>
      rw [filterMap_concat_some item, List.append_assoc] at inside ⊢
      rw [List.append_assoc]
      exact denotes.stops evs ev x item stop ys inside zs

/-- A source that stops when it is told to gives the same as one that pushes everything. -/
theorem run {evs : List α} (admissible : Admissible items ok evs)
    (inside : dom (evs.filterMap items)) :
    ∃ t, k.finish (k.feed s evs) = some t ∧ out t = f (evs.filterMap items) := by
  rcases k.feed_cases s evs with all | ⟨before, ev, after, rfl, stop, fed⟩
  · rw [all]
    exact denotes.result evs admissible inside
  · have whole : (before ++ ev :: after).filterMap items
        = (before ++ [ev]).filterMap items ++ after.filterMap items := by
      rw [← List.filterMap_append, List.append_assoc, List.singleton_append]
    rw [whole] at inside ⊢
    obtain ⟨shorter, same⟩ := denotes.stop_event stop inside []
    rw [List.append_nil] at shorter same
    rw [fed, same]
    refine denotes.result _ (admissible.of_sublist ?_) shorter
    exact List.Sublist.append_left (List.singleton_sublist.mpr List.mem_cons_self) before

/-- Flushing items comes to a state that means what pushing all of them means. -/
theorem flush {wrap : β → α} (wrapped : ∀ x, items (wrap x) = some x) {xs : List β} :
    ∀ {evs : List α}, Admissible items ok evs → dom (evs.filterMap items ++ xs) →
      ∃ evs', k.flush wrap (k.feedAll s evs) (xs.map some) = some (k.feedAll s evs') ∧
        Admissible items ok evs' ∧ dom (evs'.filterMap items) ∧
        f (evs'.filterMap items) = f (evs.filterMap items ++ xs) := by
  induction xs with
  | nil =>
      intro evs admissible inside
      rw [List.append_nil] at inside ⊢
      exact ⟨evs, rfl, admissible, inside, rfl⟩
  | cons x xs ih =>
      intro evs admissible inside
      have admissible' := admissible.append (Admissible.item ok (wrapped x))
      have one := @filterMap_concat_some _ _ _ evs _ _ (wrapped x)
      have more : dom ((evs ++ [wrap x]).filterMap items ++ xs) := by
        rwa [one, List.append_assoc, List.singleton_append]
      rw [List.map_cons, Sink.flush]
      rcases step : k.event (k.feedAll s evs) (wrap x) with ⟨t, flow⟩
      have state : k.feedAll s (evs ++ [wrap x]) = t := by rw [k.feedAll_concat, step]
      cases flow with
      | stop =>
          obtain ⟨shorter, same⟩ := denotes.stop_event (by rw [step]) more []
          rw [List.append_nil] at shorter same
          refine ⟨evs ++ [wrap x], by rw [state], admissible', shorter, ?_⟩
          rw [← same, one, List.append_assoc, List.singleton_append]
      | go =>
          obtain ⟨evs', flushed, more_admissible, inside', same⟩ := ih admissible' more
          refine ⟨evs', by rw [← flushed, state], more_admissible, inside', ?_⟩
          rw [same, one, List.append_assoc, List.singleton_append]

end Sink.Denotes

end Meaning

/-! ## Stages -/

/-- What a stage does with an item. -/
inductive Act where
  /-- Keeps it from the rest of the chain. -/
  | swallow
  /-- Keeps it, and stops the source. -/
  | halt
  /-- Passes it on, with the verdict of the rest. -/
  | forward
  /-- Passes it on, and stops the source. -/
  | forwardHalt
deriving DecidableEq, Repr

theorem Act.passed_on {act : Act} (kept : ¬ (act = .swallow ∨ act = .halt)) :
    act = .forward ∨ act = .forwardHalt := by
  cases act with
  | swallow => exact absurd (Or.inl rfl) kept
  | halt => exact absurd (Or.inr rfl) kept
  | forward => exact Or.inl rfl
  | forwardHalt => exact Or.inr rfl

/-- The part of a stage that is its own: what it does with each item, what it flushes when it is
finished, and what it is afterwards. -/
structure Middleware (O β : Type) where
  step : O → β → O × Act
  buffered : O → List (Option β)
  close : O → O

/-- A stage before a sink.  Events that are no items are passed on. -/
def Middleware.stage (op : Middleware O β) (items : α → Option β) (wrap : β → α) (k : Sink S α) :
    Sink (O × S) α where
  event st ev :=
    match items ev with
    | none => ((st.1, (k.event st.2 ev).1), (k.event st.2 ev).2)
    | some x =>
        match op.step st.1 x with
        | (o, .swallow) => ((o, st.2), .go)
        | (o, .halt) => ((o, st.2), .stop)
        | (o, .forward) => ((o, (k.event st.2 ev).1), (k.event st.2 ev).2)
        | (o, .forwardHalt) => ((o, (k.event st.2 ev).1), .stop)
  finish st := do
    let s ← k.flush wrap st.2 (op.buffered st.1)
    let s ← k.finish s
    return (op.close st.1, s)

/-- The middleware computes a function on lists of a prefix-closed domain.  After some items it has
passed on `passed`, which the function begins with, whatever comes later; what is buffered makes
up the rest.  Lists leave the domain only at items it swallows. -/
structure Middleware.Implements (op : Middleware O β) (o : O) (dom : List β → Prop)
    (h passed : List β → List β) (holds : List β → O → Prop) : Prop where
  start : holds [] o
  passed_nil : passed [] = []
  shorter : ∀ xs ys, dom (xs ++ ys) → dom xs
  step : ∀ xs x o, dom (xs ++ [x]) → holds xs o → holds (xs ++ [x]) (op.step o x).1
  keeps : ∀ xs x o, dom (xs ++ [x]) → holds xs o →
    (op.step o x).2 = .swallow ∨ (op.step o x).2 = .halt → passed (xs ++ [x]) = passed xs
  passes : ∀ xs x o, dom (xs ++ [x]) → holds xs o →
    (op.step o x).2 = .forward ∨ (op.step o x).2 = .forwardHalt →
      passed (xs ++ [x]) = passed xs ++ [x]
  full : ∀ xs x o ys, dom (xs ++ [x]) → holds xs o →
    (op.step o x).2 = .halt ∨ (op.step o x).2 = .forwardHalt → h (xs ++ x :: ys) = h (xs ++ [x])
  free : ∀ xs x o, dom (xs ++ [x]) → holds xs o → (op.step o x).2 ≠ .swallow →
    ∀ ys, dom (xs ++ x :: ys)
  ahead : ∀ xs ys, ∃ more, h (xs ++ ys) = passed xs ++ more
  rest : ∀ xs o, dom xs → holds xs o →
    ∃ more, op.buffered o = more.map some ∧ h xs = passed xs ++ more

namespace Middleware.Implements

variable {op : Middleware O β} {o : O} {dom : List β → Prop} {h : List β → List β}
variable {holds : List β → O → Prop}

/-- A stage that buffers everything until it is finished. -/
theorem of_buffering (start : holds [] o) (shorter : ∀ xs ys, dom (xs ++ ys) → dom xs)
    (step : ∀ xs x o, dom (xs ++ [x]) → holds xs o → holds (xs ++ [x]) (op.step o x).1)
    (swallows : ∀ xs x o, holds xs o → (op.step o x).2 = .swallow)
    (rest : ∀ xs o, dom xs → holds xs o → op.buffered o = (h xs).map some) :
    op.Implements o dom h (fun _ => []) holds where
  start := start
  passed_nil := rfl
  shorter := shorter
  step := step
  keeps _ _ _ _ _ _ := rfl
  passes xs x o _ held passed := by
    rw [swallows xs x o held] at passed
    rcases passed with passed | passed <;> cases passed
  full xs x o _ _ held halts := by
    rw [swallows xs x o held] at halts
    rcases halts with halts | halts <;> cases halts
  free xs x o _ held passed := absurd (swallows xs x o held) passed
  ahead xs ys := ⟨h (xs ++ ys), rfl⟩
  rest xs o inside held := ⟨h xs, rest xs o inside held, rfl⟩

/-- A stage that buffers nothing. -/
theorem of_slicing (start : holds [] o) (nil : h [] = [])
    (grows : ∀ xs x, h (xs ++ [x]) = h xs ∨ h (xs ++ [x]) = h xs ++ [x])
    (step : ∀ xs x o, holds xs o → holds (xs ++ [x]) (op.step o x).1)
    (keeps : ∀ xs x o, holds xs o → (op.step o x).2 = .swallow ∨ (op.step o x).2 = .halt →
      h (xs ++ [x]) = h xs)
    (passes : ∀ xs x o, holds xs o → (op.step o x).2 = .forward ∨ (op.step o x).2 = .forwardHalt →
      h (xs ++ [x]) = h xs ++ [x])
    (full : ∀ xs x o ys, holds xs o → (op.step o x).2 = .halt ∨ (op.step o x).2 = .forwardHalt →
      h (xs ++ x :: ys) = h (xs ++ [x]))
    (empty : ∀ xs o, holds xs o → op.buffered o = []) :
    op.Implements o (fun _ => True) h h holds where
  start := start
  passed_nil := nil
  shorter _ _ _ := trivial
  step xs x o _ := step xs x o
  keeps xs x o _ := keeps xs x o
  passes xs x o _ := passes xs x o
  full xs x o ys _ := full xs x o ys
  free _ _ _ _ _ _ _ := trivial
  ahead xs ys := by
    induction ys using List.reverseRecOn with
    | nil => exact ⟨[], by rw [List.append_nil, List.append_nil]⟩
    | append_singleton ys y ih =>
        obtain ⟨more, whole⟩ := ih
        rw [← List.append_assoc]
        rcases grows (xs ++ ys) y with same | one
        · exact ⟨more, same.trans whole⟩
        · exact ⟨more ++ [y], by rw [one, whole, List.append_assoc]⟩
  rest xs o _ held := ⟨[], by rw [empty xs o held, List.map_nil], (List.append_nil _).symm⟩

end Middleware.Implements

section Stage

variable {items : α → Option β} {ok : α → Prop} {wrap : β → α} {k : Sink S α}
variable {op : Middleware O β}

theorem Middleware.stage_none {st : O × S} {ev : α} (item : items ev = none) :
    (op.stage items wrap k).event st ev
      = ((st.1, (k.event st.2 ev).1), (k.event st.2 ev).2) := by
  simp only [Middleware.stage, item]

theorem Middleware.stage_some {st : O × S} {ev : α} {x : β} (item : items ev = some x) :
    (op.stage items wrap k).event st ev =
      (((op.step st.1 x).1,
        if (op.step st.1 x).2 = .swallow ∨ (op.step st.1 x).2 = .halt then st.2
        else (k.event st.2 ev).1),
      if (op.step st.1 x).2 = .swallow then .go
      else if (op.step st.1 x).2 = .forward then (k.event st.2 ev).2 else .stop) := by
  simp only [Middleware.stage, item]
  rcases op.step st.1 x with ⟨o, _ | _ | _ | _⟩ <;> rfl

theorem Middleware.stage_projects {S' : Type} {k' : Sink S' α} {p : S' → S}
    (projects : k'.Projects k p) : (op.stage items wrap k').Projects (op.stage items wrap k)
      fun st => (st.1, p st.2) where
  event st ev := by
    have one := projects.event st.2 ev
    have state := congrArg Prod.fst one
    have verdict := congrArg Prod.snd one
    simp only at state verdict
    cases item : items ev with
    | none => rw [stage_none item, stage_none item, ← state, ← verdict]
    | some x =>
        rw [stage_some item, stage_some item, ← state, ← verdict]
        congr 2
        exact apply_ite p _ _ _
  finish st := by
    simp only [Middleware.stage, ← projects.flush, Option.bind_eq_bind, Option.map_bind,
      Option.bind_map, Option.pure_def]
    refine Option.bind_congr fun s _ => ?_
    simp only [Function.comp_def, ← projects.finish, Option.map_bind, Option.bind_map,
      Option.map_some]

/-- The sink behind a stage sees some of the events. -/
theorem Middleware.feedAll_snd (st : O × S) (evs : List α) :
    ∃ evs', ((op.stage items wrap k).feedAll st evs).2 = k.feedAll st.2 evs' := by
  induction evs using List.reverseRecOn with
  | nil => exact ⟨[], rfl⟩
  | append_singleton evs ev ih =>
      obtain ⟨evs', same⟩ := ih
      rw [Sink.feedAll_concat]
      cases item : items ev with
      | none =>
          rw [stage_none item, same]
          exact ⟨evs' ++ [ev], (k.feedAll_concat _ _ _).symm⟩
      | some x =>
          rw [stage_some item, same]
          by_cases kept : (op.step ((op.stage items wrap k).feedAll st evs).1 x).2 = .swallow ∨
            (op.step ((op.stage items wrap k).feedAll st evs).1 x).2 = .halt
          · exact ⟨evs', if_pos kept⟩
          · exact ⟨evs' ++ [ev], (if_neg kept).trans (k.feedAll_concat _ _ _).symm⟩

variable {o : O} {dom : List β → Prop} {h passed : List β → List β} {holds : List β → O → Prop}
variable (implements : op.Implements o dom h passed holds)
include implements

/-- The sink behind a stage has seen what the stage has passed on. -/
theorem Middleware.Implements.feedAll (wrap : β → α) (s : S) {evs : List α} (inside : dom (evs.filterMap items)) :
    ∃ o' evs', (op.stage items wrap k).feedAll (o, s) evs = (o', k.feedAll s evs') ∧
      evs'.Sublist evs ∧ holds (evs.filterMap items) o' ∧
      evs'.filterMap items = passed (evs.filterMap items) := by
  induction evs using List.reverseRecOn with
  | nil => exact ⟨o, [], rfl, List.Sublist.refl _, implements.start, implements.passed_nil.symm⟩
  | append_singleton evs ev ih =>
      rw [Sink.feedAll_concat]
      cases item : items ev with
      | none =>
          rw [filterMap_concat_none item] at inside ⊢
          obtain ⟨o', evs', state, part, held, seen⟩ := ih inside
          refine ⟨o', evs' ++ [ev], ?_, part.append_right [ev], held, ?_⟩
          · rw [state, stage_none item, k.feedAll_concat]
          · rw [filterMap_concat_none item, seen]
      | some x =>
          rw [filterMap_concat_some item] at inside ⊢
          obtain ⟨o', evs', state, part, held, seen⟩ := ih (implements.shorter _ _ inside)
          rw [state, stage_some item]
          refine ⟨(op.step o' x).1, ?_⟩
          have held' := implements.step _ x o' inside held
          by_cases kept : (op.step o' x).2 = .swallow ∨ (op.step o' x).2 = .halt
          · refine ⟨evs', ?_, part.trans (List.sublist_append_left _ _), held', ?_⟩
            · simp only [if_pos kept]
            · rw [implements.keeps _ x o' inside held kept, seen]
          · refine ⟨evs' ++ [ev], ?_, part.append_right [ev], held', ?_⟩
            · simp only [if_neg kept, k.feedAll_concat]
            · rw [filterMap_concat_some item,
                implements.passes _ x o' inside held (Act.passed_on kept), seen]

/-- Finishing the stage does not panic where finishing the sink behind it does not. -/
theorem Middleware.Implements.total {s : S} {safe : List β → Prop}
    (total : ∀ evs, safe (evs.filterMap items) → ∃ t, k.finish (k.feedAll s evs) = some t)
    (wrapped : ∀ x, items (wrap x) = some x) {evs : List α} (inside : dom (evs.filterMap items))
    (behind : ∀ ys, ys <+: h (evs.filterMap items) → safe ys) :
    ∃ t, (op.stage items wrap k).finish ((op.stage items wrap k).feedAll (o, s) evs) = some t := by
  obtain ⟨o', evs', state, -, held, seen⟩ := implements.feedAll (k := k) wrap s inside
  obtain ⟨more, buffered, whole⟩ := implements.rest _ o' inside held
  obtain ⟨ys, part, flushed⟩ := k.flush_feedAll wrap (k.feedAll s evs') more
  have items_ys : (ys.map wrap).filterMap items = ys := by
    rw [List.filterMap_map, show items ∘ wrap = some from funext wrapped, List.filterMap_some]
  have inner : safe ((evs' ++ ys.map wrap).filterMap items) := by
    rw [List.filterMap_append, seen, items_ys]
    refine behind _ ?_
    rw [whole]
    exact (List.prefix_append_right_inj _).mpr part
  obtain ⟨t, finished⟩ := total _ inner
  refine ⟨(op.close o', t), ?_⟩
  rw [state]
  change ((k.flush wrap (k.feedAll s evs') (op.buffered o')).bind fun s =>
    (k.finish s).bind fun s => some (op.close o', s)) = _
  rw [buffered, flushed, Option.bind_some, ← k.feedAll_append, finished, Option.bind_some]

/-- A stage before a sink that means a function means the composition. -/
theorem Middleware.Implements.stage (wrapped : ∀ x, items (wrap x) = some x) {out : S → γ}
    {domK : List β → Prop} {s : S} {f : List β → γ} (denotes : k.Denotes items ok out domK s f) :
    (op.stage items wrap k).Denotes items ok (fun st => out st.2)
      (fun xs => dom xs ∧ domK (h xs)) (o, s) fun xs => f (h xs) where
  result evs admissible inside := by
    obtain ⟨o', evs', state, part, held, seen⟩ := implements.feedAll (k := k) wrap s inside.1
    obtain ⟨more, buffered, whole⟩ := implements.rest _ o' inside.1 held
    have inner : domK (evs'.filterMap items ++ more) := by
      rw [seen, ← whole]
      exact inside.2
    obtain ⟨evs'', flushed, admissible', inner', same⟩ :=
      denotes.flush wrapped (admissible.of_sublist part) inner
    obtain ⟨t, finished, result⟩ := denotes.result evs'' admissible' inner'
    refine ⟨(op.close o', t), ?_, ?_⟩
    · rw [state]
      change ((k.flush wrap (k.feedAll s evs') (op.buffered o')).bind fun s =>
        (k.finish s).bind fun s => some (op.close o', s)) = _
      rw [buffered, flushed, Option.bind_some, finished, Option.bind_some]
    · rw [result, same, seen, ← whole]
  calm evs ev item := by
    obtain ⟨evs', same⟩ : ∃ evs', ((op.stage items wrap k).feedAll (o, s) evs).2
        = k.feedAll s evs' := Middleware.feedAll_snd (o, s) evs
    rw [stage_none item, same]
    exact denotes.calm evs' ev item
  stops evs ev x item stop ys inside zs := by
    obtain ⟨domOuter, domInner⟩ := inside
    have upTo : dom (evs.filterMap items ++ [x]) := by
      rw [← List.singleton_append, ← List.append_assoc] at domOuter
      exact implements.shorter _ _ domOuter
    obtain ⟨o', evs', state, -, held, seen⟩ :=
      implements.feedAll (k := k) wrap s (implements.shorter _ _ upTo)
    rw [state, stage_some item] at stop
    have free := implements.free _ x o' upTo held
    cases act : (op.step o' x).2 with
    | swallow =>
        rw [act] at stop
        cases stop
    | halt =>
        have full := fun ys => implements.full _ x o' ys upTo held (Or.inl act)
        rw [full ys] at domInner
        rw [full ys, full zs]
        exact ⟨⟨free (by rw [act]; decide) zs, domInner⟩, rfl⟩
    | forwardHalt =>
        have full := fun ys => implements.full _ x o' ys upTo held (Or.inr act)
        rw [full ys] at domInner
        rw [full ys, full zs]
        exact ⟨⟨free (by rw [act]; decide) zs, domInner⟩, rfl⟩
    | forward =>
        simp only [act, reduceCtorEq, if_false, if_true] at stop
        have whole : ∀ ys, ∃ more,
            h (evs.filterMap items ++ x :: ys) = evs'.filterMap items ++ x :: more := by
          intro ys
          obtain ⟨more, whole⟩ := implements.ahead (evs.filterMap items ++ [x]) ys
          rw [List.append_assoc, List.singleton_append,
            implements.passes _ x o' upTo held (Or.inl act), ← seen, List.append_assoc,
            List.singleton_append] at whole
          exact ⟨more, whole⟩
        obtain ⟨more, wholeYs⟩ := whole ys
        obtain ⟨more', wholeZs⟩ := whole zs
        rw [wholeYs] at domInner ⊢
        rw [wholeZs]
        obtain ⟨domInner', same⟩ := denotes.stops evs' ev x item stop more domInner more'
        exact ⟨⟨free (by rw [act]; decide) zs, domInner'⟩, same⟩

end Stage

end Graphy
