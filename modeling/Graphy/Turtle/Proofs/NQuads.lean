import Graphy.Turtle.Proofs.Driving
import Graphy.Turtle.RoundTrip

/-!
# Parsing written quads

The parser on the text of a list of quads, statement by statement: it builds the terms of
each quad and records them, or panics where slicing an arena fails.
-/

namespace Graphy.Turtle

open Graphy.Concise Graphy.Comp

/-! ## Statements -/

/-- Valid terms in legal positions. -/
structure QuadView.Valid (q : QuadView) : Prop where
  subject : q.s.isNode = true ∧ q.s.Valid
  predicate : q.p.isIri = true ∧ q.p.Valid
  object : q.o.Valid ∧ q.o.depth ≤ maxTripleTermDepth
  graph : ∀ g, q.g = some g → g.isNode = true ∧ g.Valid

def graphTokens : Option TermView → List Token
  | none => []
  | some g => termTokens g

/-- The tokens of a written quad. -/
def quadTokens (q : QuadView) : List Token :=
  termTokens q.s ++ (termTokens q.p ++ (termTokens q.o ++ (graphTokens q.g ++ [.dot])))

/-- A written quad reads as its tokens, up to the newline that ends it. -/
theorem readsAll_quad {trusted : Bool} {gap : Bytes} (spaces : gap.all Cursor.isSpace = true)
    {q : QuadView} (valid : q.Valid) (rest : Bytes) :
    ReadsAll trusted (gap ++ (writeView q ++ rest)) (quadTokens q) (0x0A :: rest) := by
  have ending : strBytes " .\n" = [0x20, 0x2E, 0x0A] := by decide +kernel
  unfold quadTokens
  cases graph : q.g with
  | none =>
      have shape : writeView q ++ rest = writeTerm q.s ++ 0x20 :: (writeTerm q.p ++
          0x20 :: (writeTerm q.o ++ 0x20 :: 0x2E :: 0x0A :: rest)) := by
        rw [writeView, graph, ending]
        simp [writeGraph]
      rw [shape]
      refine (readsAll_term spaces valid.subject.2 _).append ?_
      refine (readsAll_term spaces_blank valid.predicate.2 _).append ?_
      refine (readsAll_term spaces_blank valid.object.1 _).append ?_
      exact .single (reads_dot _)
  | some g =>
      have shape : writeView q ++ rest = writeTerm q.s ++ 0x20 :: (writeTerm q.p ++
          0x20 :: (writeTerm q.o ++ 0x20 :: (writeTerm g ++ 0x20 :: 0x2E :: 0x0A :: rest))) := by
        rw [writeView, graph, ending]
        simp [writeGraph]
      rw [shape]
      refine (readsAll_term spaces valid.subject.2 _).append ?_
      refine (readsAll_term spaces_blank valid.predicate.2 _).append ?_
      refine (readsAll_term spaces_blank valid.object.1 _).append ?_
      refine (readsAll_term spaces_blank (valid.graph g graph).2 _).append ?_
      exact .single (reads_dot _)

def buildGraph : Option TermView → TermCtx → Arena → Option (Option H × TermCtx × Arena)
  | none, ctx, stmt => some (none, ctx, stmt)
  | some g, ctx, stmt => do
      let (h, ctx, stmt) ← build g ctx stmt
      return (some h, ctx, stmt)

/-- The terms of a statement, sliced out of its arena. -/
def slices (stmt : Arena) (s p o : H) (g : Option H) : Option QuadRec := do
  let g ← QuadBuf.getGraph stmt g
  let s ← stmt.get s
  let p ← stmt.get p
  let o ← stmt.get o
  return ⟨s, p, o, g, none⟩

/-- What a statement records; nothing when slicing its arena fails. -/
def buildQuad (q : QuadView) (ctx : TermCtx) : Option (QuadRec × TermCtx) := do
  let (hs, ctx, stmt) ← build q.s ctx .empty
  let (hp, ctx, stmt) ← build q.p ctx stmt
  let (ho, ctx, stmt) ← build q.o ctx stmt
  let (hg, ctx, stmt) ← buildGraph q.g ctx stmt
  let record ← slices stmt hs hp ho hg
  return (record, ctx)

/-- The driver at the start of a statement. -/
structure Idle (d : NxDriver) : Prop where
  state : d.state = .subject
  g : d.g = none
  ttStack : d.ttStack = []
  stmt : d.stmt = .empty

/-- The driver behind a finished statement. -/
def recorded (d : NxDriver) (q : QuadView) (built : QuadRec × TermCtx) : NxDriver :=
  { d with
    ctx := built.2
    pending := lastString q.o d.pending
    quads := d.quads.push built.1
    s := none
    p := none
    o := none }

/-- The dot slices the terms out of the arena and records them. -/
theorem ends_dot {d : NxDriver} (state : d.state = .afterObject ∨ d.state = .afterGraph)
    {hs hp ho : H} (s : d.s = some hs) (p : d.p = some hp) (o : d.o = some ho) {ts : List Token}
    {r : Option NxDriver}
    (goes : ∀ q, slices d.stmt hs hp ho d.g = some q →
      Ends ({ d with quads := d.quads.push q }.resetStatement) ts r)
    (fails : slices d.stmt hs hp ho d.g = none → r = none) :
    Ends d (.dot :: ts) r := by
  have opened : ∀ start, NxDriver.step start .dot d = NxDriver.emitStatement d := by
    intro start
    rcases state with state | state
    · have handled : NxDriver.dispatch start .dot d =
          (NxDriver.handled (NxDriver.onAfterObject start .dot)) d := by
        simp only [NxDriver.dispatch, run_bind, run_get, state]
      rw [step_of_handled handled]
      simp only [NxDriver.onAfterObject, run_bind, run_get, if_true]
    · have handled : NxDriver.dispatch start .dot d =
          (NxDriver.handled (NxDriver.onAfterGraph start .dot)) d := by
        simp only [NxDriver.dispatch, run_bind, run_get, state]
      rw [step_of_handled handled]
      simp only [NxDriver.onAfterGraph, if_true]
  have driving : d.state ≠ .recover := by
    rcases state with state | state <;> simp [state]
  have sliced : ∀ h b, d.stmt.get h = some b → NxDriver.bytesOf h d = .ok b d := by
    intro h b got
    simp only [NxDriver.bytesOf, run_bind, run_get, run_expect, got]
  have outside : ∀ h, d.stmt.get h = none →
      NxDriver.bytesOf h d = .panic "range out of bounds" d := by
    intro h got
    simp only [NxDriver.bytesOf, run_bind, run_get, run_expect, got]
  have crashes : (∃ message d', NxDriver.emitStatement d = .panic message d') →
      slices d.stmt hs hp ho d.g = none → Ends d (.dot :: ts) r := by
    rintro ⟨message, d', crash⟩ none
    rw [fails none]
    exact .panic driving fun start => ⟨message, d', (opened start).trans crash⟩
  -- the slices in the order in which the source takes them
  cases gg : QuadBuf.getGraph d.stmt d.g with
  | none =>
      have graph : NxDriver.graphBytes d.g d = .panic "range out of bounds" d := by
        cases isGraph : d.g with
        | none => simp [isGraph, QuadBuf.getGraph] at gg
        | some h =>
            rw [isGraph, QuadBuf.getGraph, Option.map_eq_none_iff] at gg
            simp only [NxDriver.graphBytes, run_bind, outside h gg]
      refine crashes ?_ (by simp [slices, gg])
      simp [NxDriver.emitStatement, run_bind, run_get, s, p, o, run_expect, graph]
  | some gb =>
      have graph : NxDriver.graphBytes d.g d = .ok gb d := by
        cases isGraph : d.g with
        | none =>
            rw [isGraph, QuadBuf.getGraph, Option.some.injEq] at gg
            rw [← gg]
            rfl
        | some h =>
            rw [isGraph, QuadBuf.getGraph, Option.map_eq_some_iff] at gg
            obtain ⟨b, got, rfl⟩ := gg
            simp only [NxDriver.graphBytes, run_bind, sliced h b got, run_pure]
      cases gs : d.stmt.get hs with
      | none =>
          refine crashes ?_ (by simp [slices, gg, gs])
          simp [NxDriver.emitStatement, run_bind, run_get, s, p, o, run_expect, graph,
            outside hs gs]
      | some sb =>
          cases gp : d.stmt.get hp with
          | none =>
              refine crashes ?_ (by simp [slices, gg, gs, gp])
              simp [NxDriver.emitStatement, run_bind, run_get, s, p, o, run_expect, graph,
                sliced hs sb gs, outside hp gp]
          | some pb =>
              cases go : d.stmt.get ho with
              | none =>
                  refine crashes ?_ (by simp [slices, gg, gs, gp, go])
                  simp [NxDriver.emitStatement, run_bind, run_get, s, p, o, run_expect, graph,
                    sliced hs sb gs, sliced hp pb gp, outside ho go]
              | some ob =>
                  have closed : Steps d .dot
                      ({ d with quads := d.quads.push ⟨sb, pb, ob, gb, none⟩ }.resetStatement) := by
                    refine ⟨driving, ?_, rfl⟩
                    intro start
                    rw [opened]
                    simp [NxDriver.emitStatement, run_bind, run_get, s, p, o, run_expect, graph,
                      sliced hs sb gs, sliced hp pb gp, sliced ho ob go, run_update, QuadBuf.push]
                  exact .cons closed (goes _ (by simp [slices, gg, gs, gp, go]))

theorem steps_subject {d : NxDriver} (state : d.state = .subject) (plain : Plain d)
    {v : TermView} (node : v.isNode = true) (valid : v.Valid) :
    ∃ t built, termTokens v = [t] ∧ build v d.ctx d.stmt = some built ∧
      Steps d t { d with
        ctx := built.2.1
        stmt := built.2.2
        s := some built.1
        state := .predicate } := by
  obtain ⟨t, built, tokens, isBuilt, -, emitted⟩ := nodeTerm_node node valid plain
  refine ⟨t, built, tokens, isBuilt, by simp [state], ?_, (build_same isBuilt).2.1⟩
  intro start
  simp [NxDriver.step, NxDriver.dispatch, run_bind, run_get, state, NxDriver.handled,
    NxDriver.onSubject, NxDriver.nodeOr, emitted, run_update, run_pure]

theorem steps_predicate {d : NxDriver} (state : d.state = .predicate) (plain : Plain d)
    {v : TermView} (iri : v.isIri = true) (valid : v.Valid) :
    ∃ t built, termTokens v = [t] ∧ build v d.ctx d.stmt = some built ∧
      Steps d t { d with
        ctx := built.2.1
        stmt := built.2.2
        p := some built.1
        state := .object } := by
  obtain ⟨i, rfl⟩ := iri_of_isIri iri
  refine ⟨_, _, rfl, rfl, by simp [state], ?_, rfl⟩
  intro start
  simp [NxDriver.step, NxDriver.dispatch, run_bind, run_get, state, NxDriver.handled,
    NxDriver.onPredicate, NxDriver.iriOr, NxDriver.emitIri, resolveIri_valid plain.base valid,
    NxDriver.liftErr, NxDriver.emitTerm, put, run_update, run_pure]

theorem steps_graph {d : NxDriver} (state : d.state = .afterObject) (plain : Plain d)
    {v : TermView} (node : v.isNode = true) (valid : v.Valid) :
    ∃ t built, Closing t ∧ termTokens v = [t] ∧ build v d.ctx d.stmt = some built ∧
      Steps d t { d with
        ctx := built.2.1
        stmt := built.2.2
        g := some built.1
        state := .afterGraph } := by
  obtain ⟨t, built, tokens, isBuilt, notDot, emitted⟩ := nodeTerm_node node valid plain
  have closing : Closing t := by
    cases v with
    | iri i =>
        cases tokens
        exact .iri i
    | blankNode label =>
        cases tokens
        exact .blankLabel label
    | _ => cases node
  refine ⟨t, built, closing, tokens, isBuilt, by simp [state], ?_, (build_same isBuilt).2.1⟩
  intro start
  simp [NxDriver.step, NxDriver.dispatch, run_bind, run_get, state, NxDriver.handled,
    NxDriver.onAfterObject, notDot, plain.quadsMode, NxDriver.onGraphLabel, NxDriver.nodeOr,
    emitted, run_update, run_pure]

/-- A written quad is built and recorded. -/
theorem ends_quad {q : QuadView} (valid : q.Valid) {d : NxDriver} (idle : Idle d)
    (plain : Plain d) {ts : List Token} {r : Option NxDriver}
    (goes : match buildQuad q d.ctx with
      | some built => Ends (recorded d q built) ts r
      | none => r = none) : Ends d (quadTokens q ++ ts) r := by
  obtain ⟨tokenS, builtS, tokensS, isBuiltS, stepsS⟩ :=
    steps_subject idle.state plain valid.subject.1 valid.subject.2
  have sameS := build_same isBuiltS
  obtain ⟨tokenP, builtP, tokensP, isBuiltP, stepsP⟩ := steps_predicate
    (d := { d with
      ctx := builtS.2.1
      stmt := builtS.2.2
      s := some builtS.1
      state := .predicate }) rfl (plain.of_same sameS.1 rfl rfl rfl) valid.predicate.1
    valid.predicate.2
  have sameP := build_same isBuiltP
  have plainO : Plain { d with
      ctx := builtP.2.1
      stmt := builtP.2.2
      s := some builtS.1
      p := some builtP.1
      state := .object } := plain.of_same (sameP.1.trans sameS.1) rfl rfl rfl
  have depth := valid.object.2
  rw [idle.stmt] at isBuiltS
  unfold quadTokens
  rw [tokensS, tokensP]
  simp only [List.cons_append, List.nil_append, List.append_assoc]
  refine .cons stepsS (.cons stepsP ?_)
  unfold buildQuad at goes
  simp only [isBuiltS, isBuiltP, Option.bind_eq_bind, Option.bind_some] at goes
  cases graph : q.g with
  | none =>
      rw [graph] at goes
      simp only [graphTokens, List.nil_append]
      refine ends_object valid.object.1 rfl plainO (by simp [idle.ttStack, depth]) .dot ?_
      unfold Continues
      cases builtO : build q.o builtP.2.1 builtP.2.2 with
      | none =>
          rw [builtO] at goes
          exact goes
      | some built =>
          rw [builtO] at goes
          simp only [buildGraph, Option.bind_some] at goes
          refine ends_dot (.inl (by simp [completed, idle.ttStack])) rfl rfl rfl ?_ ?_
          · simp only [completed, idle.g]
            intro record sliced
            rw [sliced] at goes
            simpa [recorded, NxDriver.resetStatement, idle.state, idle.g, idle.ttStack,
              idle.stmt] using goes
          · simp only [completed, idle.g]
            intro sliced
            rw [sliced] at goes
            exact goes
  | some g =>
      rw [graph] at goes
      obtain ⟨node, validG⟩ := valid.graph g graph
      have first : ∃ t, termTokens g = [t] ∧ Closing t := by
        cases g with
        | iri i => exact ⟨_, rfl, .iri i⟩
        | blankNode label => exact ⟨_, rfl, .blankLabel label⟩
        | _ => cases node
      obtain ⟨tokenG, tokensG, closing⟩ := first
      simp only [graphTokens, tokensG, List.cons_append, List.nil_append]
      refine ends_object valid.object.1 rfl plainO (by simp [idle.ttStack, depth]) closing ?_
      unfold Continues
      cases builtO : build q.o builtP.2.1 builtP.2.2 with
      | none =>
          rw [builtO] at goes
          exact goes
      | some built =>
          rw [builtO] at goes
          have sameO := build_same builtO
          obtain ⟨t, builtG, -, tokensG', isBuiltG, stepsG⟩ := steps_graph
            (d := completed { d with
              ctx := builtP.2.1
              stmt := builtP.2.2
              s := some builtS.1
              p := some builtP.1
              state := .object } q.o built) (by simp [completed, idle.ttStack])
            (plain.of_same (sameO.1.trans (sameP.1.trans sameS.1)) rfl rfl rfl) node validG
          rw [tokensG] at tokensG'
          cases tokensG'
          simp only [completed] at isBuiltG
          simp only [buildGraph, isBuiltG, Option.bind_eq_bind, Option.bind_some,
            Option.pure_def] at goes
          refine .cons stepsG (ends_dot (.inr rfl) rfl rfl rfl ?_ ?_)
          · intro record sliced
            rw [sliced] at goes
            simpa [recorded, completed, NxDriver.resetStatement, idle.state, idle.g, idle.ttStack,
              idle.stmt] using goes
          · intro sliced
            rw [sliced] at goes
            exact goes

theorem trusted_of_buildQuad {q : QuadView} {ctx : TermCtx} {built : QuadRec × TermCtx}
    (h : buildQuad q ctx = some built) :
    built.2.base = ctx.base ∧ built.2.trusted = ctx.trusted ∧ built.2.labelNs = ctx.labelNs := by
  simp only [buildQuad, Option.bind_eq_bind, Option.bind_eq_some_iff] at h
  obtain ⟨⟨hs, ctxS, stmtS⟩, builtS, ⟨hp, ctxP, stmtP⟩, builtP, ⟨ho, ctxO, stmtO⟩, builtO,
    ⟨hg, ctxG, stmtG⟩, builtG, record, -, last⟩ := h
  cases last
  have sameS := build_same builtS
  have sameP := build_same builtP
  have sameO := build_same builtO
  have sameG : ctxG.base = ctxO.base ∧ ctxG.trusted = ctxO.trusted ∧
      ctxG.labelNs = ctxO.labelNs := by
    cases graph : q.g with
    | none =>
        rw [graph] at builtG
        cases builtG
        exact ⟨rfl, rfl, rfl⟩
    | some g =>
        rw [graph] at builtG
        simp only [buildGraph, Option.bind_eq_bind, Option.bind_eq_some_iff] at builtG
        obtain ⟨⟨h, ctx', stmt'⟩, builtG, last⟩ := builtG
        cases last
        exact build_same builtG
  simp only at sameS sameP sameO sameG ⊢
  exact ⟨sameG.1.trans (sameO.1.trans (sameP.1.trans sameS.1)),
    sameG.2.1.trans (sameO.2.1.trans (sameP.2.1.trans sameS.2.1)),
    sameG.2.2.trans (sameO.2.2.trans (sameP.2.2.trans sameS.2.2))⟩

/-! ## Documents -/

/-- What the statements of a document record, one after another. -/
def buildQuads : List QuadView → TermCtx → QuadBuf → Option (TermCtx × QuadBuf)
  | [], ctx, buf => some (ctx, buf)
  | q :: qs, ctx, buf => do
      let (record, ctx) ← buildQuad q ctx
      buildQuads qs ctx (buf.push record)

/-- By induction on the quads: the driver records them all, or panics. -/
theorem ends_quads {qs : List QuadView} (valid : ∀ q ∈ qs, q.Valid) {d : NxDriver}
    (idle : Idle d) (plain : Plain d) :
    match buildQuads qs d.ctx d.quads with
    | some built => ∃ d', Ends d (qs.flatMap quadTokens) (some d') ∧ d'.state = .subject ∧
        d'.quads = built.2
    | none => Ends d (qs.flatMap quadTokens) none := by
  induction qs generalizing d with
  | nil => exact ⟨d, .nil d, idle.state, rfl⟩
  | cons q qs ih =>
      have validQ := valid q (List.mem_cons_self ..)
      have validQs : ∀ q ∈ qs, q.Valid := fun q mem => valid q (List.mem_cons_of_mem _ mem)
      rw [List.flatMap_cons]
      simp only [buildQuads, Option.bind_eq_bind]
      cases isBuilt : buildQuad q d.ctx with
      | none =>
          refine ends_quad validQ idle plain ?_
          rw [isBuilt]
      | some built =>
          have same := trusted_of_buildQuad isBuilt
          have rest := ih validQs (d := recorded d q built)
            ⟨idle.state, idle.g, idle.ttStack, idle.stmt⟩ (plain.of_same same.1 rfl rfl rfl)
          simp only [Option.bind_some]
          simp only [recorded] at rest ⊢
          cases more : buildQuads qs built.2 (d.quads.push built.1) with
          | none =>
              rw [more] at rest
              refine ends_quad validQ idle plain ?_
              rw [isBuilt]
              exact rest
          | some final =>
              rw [more] at rest
              obtain ⟨d', ends, state, quads⟩ := rest
              refine ⟨d', ends_quad validQ idle plain ?_, state, quads⟩
              rw [isBuilt]
              exact ends

theorem readsAll_quads {trusted : Bool} {qs : List QuadView} (valid : ∀ q ∈ qs, q.Valid)
    {gap : Bytes} (spaces : gap.all Cursor.isSpace = true) :
    ∃ rest, rest.all Cursor.isSpace = true ∧
      ReadsAll trusted (gap ++ (qs.map writeView).flatten) (qs.flatMap quadTokens) rest := by
  induction qs generalizing gap with
  | nil => exact ⟨gap, spaces, by simpa using ReadsAll.nil gap⟩
  | cons q qs ih =>
      obtain ⟨rest, isRest, reads⟩ := ih (fun q mem => valid q (List.mem_cons_of_mem _ mem))
        spaces_newline
      refine ⟨rest, isRest, ?_⟩
      rw [List.map_cons, List.flatten_cons, List.flatMap_cons]
      exact (readsAll_quad spaces (valid q (List.mem_cons_self ..)) _).append reads

/-- Nothing but spaces is left. -/
theorem next_spaces (eof trusted : Bool) {gap : Bytes} (spaces : gap.all Cursor.isSpace = true)
    (position : Position) : ∃ position',
      Cursor.next eof trusted ⟨gap, position⟩ =
        (if eof then .eof position' else .needMore, ⟨[], position'⟩) := by
  have none_ : ∀ position, Cursor.next eof trusted ⟨[], position⟩ =
      (if eof then .eof position else .needMore, ⟨[], position⟩) := by
    intro position
    unfold Cursor.next
    rw [Cursor.skipSpace_nil rfl]
  cases gap with
  | nil => exact ⟨position, none_ position⟩
  | cons g gap =>
      rw [List.all_cons, Bool.and_eq_true] at spaces
      have whole : gap.takeWhile Cursor.isSpace = gap := by
        have all := @List.takeWhile_append_of_pos _ _ gap [] (List.all_eq_true.mp spaces.2)
        simpa using all
      have moved : Cursor.accept ⟨g :: gap, position⟩ (1 + gap.length) =
          ⟨[], position.advance (g :: gap)⟩ := by
        unfold Cursor.accept
        have length : 1 + gap.length = (g :: gap).length := by
          rw [List.length_cons, Nat.add_comm]
        simp only [length, List.drop_length, List.take_length]
      refine ⟨position.advance (g :: gap), ?_⟩
      rw [← none_]
      unfold Cursor.next
      rw [Cursor.skipSpace_cons rfl, if_pos spaces.1, whole, moved]

theorem pump_spaces (eof : Bool) {gap : Bytes} (spaces : gap.all Cursor.isSpace = true)
    (position : Position) {d : NxDriver} (state : d.state = .subject) : ∃ position',
      NxDriver.pump eof ⟨gap, position⟩ d = .ok () (⟨[], position'⟩, d) := by
  obtain ⟨position', next⟩ := next_spaces eof d.ctx.trusted spaces position
  refine ⟨position', ?_⟩
  rw [NxDriver.pump, if_neg (by simp [state])]
  split
  all_goals
    rename_i found
    rw [next] at found
  · cases eof <;> cases found
    rfl
  · rw [if_pos state]
    cases eof <;> cases found
    rfl
  · cases eof <;> cases found
  · cases eof <;> cases found

def startCtx (trusted : Bool) : TermCtx := ⟨none, [], [], 0, trusted, none⟩

/-- The parser on the text of a list of quads. -/
theorem parse_written (lenient trusted : Bool) {qs : List QuadView}
    (valid : ∀ q ∈ qs, q.Valid) :
    match (buildQuads qs (startCtx trusted) .empty).bind fun built => built.2.iter with
    | some out => ∃ p, parseNQuads lenient trusted (qs.map writeView).flatten = .ok out p
    | none => ∃ message p,
        parseNQuads lenient trusted (qs.map writeView).flatten = .panic message p := by
  have idle : Idle (NxDriver.new (lineOptions lenient trusted) true false) :=
    ⟨rfl, rfl, rfl, rfl⟩
  have plain : Plain (NxDriver.new (lineOptions lenient trusted) true false) :=
    ⟨rfl, rfl, rfl, rfl⟩
  have ends := ends_quads valid idle plain
  obtain ⟨rest, spaces, reads⟩ := @readsAll_quads trusted _ valid _ spaces_nil
  rw [List.nil_append] at reads
  rw [show (NxDriver.new (lineOptions lenient trusted) true false).ctx = startCtx trusted from rfl,
    show (NxDriver.new (lineOptions lenient trusted) true false).quads = .empty from rfl] at ends
  cases built : buildQuads qs (startCtx trusted) .empty with
  | none =>
      rw [built] at ends
      obtain ⟨-, panics⟩ := pump_of_ends ends reads false ⟨0, 1, 1⟩
      obtain ⟨message, p, panicked⟩ := panics rfl
      refine ⟨message, ?_⟩
      simp only [parseNQuads, NxParser.readFrom, run_bind, NxParser.feed, run_update, NxParser.pump,
        NxParser.new, NxParser.clearQuads, Cursor.feed, List.nil_append]
      rw [show ({ NxDriver.new (lineOptions lenient trusted) true false with quads := .empty } :
        NxDriver) = NxDriver.new (lineOptions lenient trusted) true false from rfl, panicked]
      exact ⟨_, rfl⟩
  | some final =>
      rw [built] at ends
      obtain ⟨d', ends, state, quads⟩ := ends
      obtain ⟨goes, -⟩ := pump_of_ends ends reads false ⟨0, 1, 1⟩
      obtain ⟨-, position', pumped⟩ := goes d' rfl
      obtain ⟨behind, fed⟩ := pump_spaces false spaces position' state
      obtain ⟨last, finished⟩ := pump_spaces true spaces_nil behind
        (d := { d' with quads := .empty }) state
      rw [fed] at pumped
      simp only [parseNQuads, NxParser.readFrom, run_bind, NxParser.feed, run_update, NxParser.pump,
        NxParser.new, NxParser.clearQuads, Cursor.feed, List.nil_append]
      rw [show ({ NxDriver.new (lineOptions lenient trusted) true false with quads := .empty } :
        NxDriver) = NxDriver.new (lineOptions lenient trusted) true false from rfl, pumped]
      simp only [NxParser.drain, run_bind, run_get, run_expect, quads, Option.bind_some]
      cases final.2.iter with
      | none => exact ⟨_, _, rfl⟩
      | some out =>
          simp only [NxParser.finish, run_bind, run_update, NxParser.pump, NxParser.clearQuads,
            finished]
          simp only [QuadBuf.iter, QuadBuf.empty, List.mapM_nil, Option.pure_def, run_pure,
            List.append_nil]
          exact ⟨_, rfl⟩

end Graphy.Turtle
