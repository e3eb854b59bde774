import Graphy.Turtle.Proofs.Reading

/-!
# Driving over written terms

The tokens of a written term make the driver emit the term's parts from the leaves up, and
nothing else; only slicing the arena of the statement can fail.
-/

namespace Graphy.Comp

variable {ε σ α β : Type}

theorem run_bind (m : Comp ε σ β) (f : β → Comp ε σ α) (s : σ) :
    (m >>= f) s = match m s with
      | .ok a s' => f a s'
      | .err e s' => .err e s'
      | .panic message s' => .panic message s' := rfl

theorem run_pure (a : α) (s : σ) : (pure a : Comp ε σ α) s = .ok a s := rfl

theorem run_get (s : σ) : (get : Comp ε σ σ) s = .ok s s := rfl

theorem run_update (f : σ → σ) (s : σ) : (update f : Comp ε σ Unit) s = .ok () (f s) := rfl

theorem run_expect (o : Option α) (message : String) (s : σ) :
    (expect o message : Comp ε σ α) s = match o with
      | some a => .ok a s
      | none => .panic message s := by
  cases o <;> rfl

end Graphy.Comp

namespace Graphy.Turtle

open Graphy.Concise Graphy.Comp

/-! ## Token by token -/

/-- Handling the token leads to the state, wherever the token starts. -/
structure Steps (d : NxDriver) (t : Token) (d' : NxDriver) : Prop where
  driving : d.state ≠ .recover
  step : ∀ start, NxDriver.step start t d = .ok () d'
  trusted : d'.ctx.trusted = d.ctx.trusted

/-- Handling the tokens leads to the state, or to a panic when there is none. -/
inductive Ends : NxDriver → List Token → Option NxDriver → Prop where
  | nil (d : NxDriver) : Ends d [] (some d)
  | cons {d d' : NxDriver} {t : Token} {ts : List Token} {r : Option NxDriver}
      (first : Steps d t d') (more : Ends d' ts r) : Ends d (t :: ts) r
  | panic {d : NxDriver} {t : Token} {ts : List Token} (driving : d.state ≠ .recover)
      (crash : ∀ start, ∃ message d', NxDriver.step start t d = .panic message d') :
      Ends d (t :: ts) none

/-- The pump goes on behind the tokens from the state they lead to, or panics. -/
theorem pump_of_ends {bytes rest : Bytes} {ts : List Token} {d : NxDriver} {r : Option NxDriver}
    (ends : Ends d ts r) (reads : ReadsAll d.ctx.trusted bytes ts rest) (eof : Bool)
    (position : Position) :
    (∀ d', r = some d' → d'.ctx.trusted = d.ctx.trusted ∧ ∃ position',
        NxDriver.pump eof ⟨bytes, position⟩ d = NxDriver.pump eof ⟨rest, position'⟩ d') ∧
      (r = none → ∃ message p, NxDriver.pump eof ⟨bytes, position⟩ d = .panic message p) := by
  induction ends generalizing bytes position with
  | nil d =>
      cases reads
      refine ⟨?_, fun same => (Option.some_ne_none d same).elim⟩
      rintro d' same
      cases same
      exact ⟨rfl, position, rfl⟩
  | cons first more ih =>
      rename_i d d' t ts r
      cases reads with
      | cons read reads =>
          obtain ⟨start, position', next⟩ := read eof position
          have moved := NxDriver.pump_token first.driving next
          simp only [first.step start] at moved
          rw [← first.trusted] at reads
          obtain ⟨goes, panics⟩ := ih reads position'
          rw [moved, ← first.trusted]
          exact ⟨goes, panics⟩
  | panic driving crash =>
      cases reads with
      | cons read reads =>
          obtain ⟨start, position', next⟩ := read eof position
          obtain ⟨message, d', crashed⟩ := crash start
          have moved := NxDriver.pump_token driving next
          simp only [crashed] at moved
          exact ⟨fun d' same => (Option.some_ne_none d' same.symm).elim,
            fun _ => ⟨message, _, moved⟩⟩

/-! ## Building a term -/

/-- Append a term to the arena. -/
def put (ctx : TermCtx) (stmt : Arena) (bytes : Bytes) : H × TermCtx × Arena :=
  ((stmt.append bytes).handleFrom stmt.mark, ctx, stmt.append bytes)

/-- What the parts of a term leave in the arena of the statement; nothing when slicing a
component fails. -/
def build : TermView → TermCtx → Arena → Option (H × TermCtx × Arena)
  | .iri i, ctx, stmt => some (put ctx stmt (encodeIri i))
  | .blankNode label, ctx, stmt =>
      some (put (ctx.internalLabel label).2 stmt
        (blankOrdinal ctx.labelNs "s" (ctx.internalLabel label).1))
  | .simple lex, ctx, stmt => some (put ctx stmt (encodeSimple lex))
  | .lang lex tag dir, ctx, stmt => some (put ctx stmt (encodeLang lex tag dir))
  | .datatyped lex dt, ctx, stmt => some (put ctx stmt (encodeDatatype lex dt))
  | .tripleTerm s p o, ctx, stmt => do
      let (hs, ctx, stmt) ← build s ctx stmt
      let (hp, ctx, stmt) ← build p ctx stmt
      let (ho, ctx, stmt) ← build o ctx stmt
      let sb ← stmt.get hs
      let pb ← stmt.get hp
      let ob ← stmt.get ho
      return put ctx stmt (encodeTripleTerm sb pb ob)

/-- A driver of the default mode: no base, numbered labels, the additions of RDF 1.2. -/
structure Plain (d : NxDriver) : Prop where
  base : d.ctx.base = none
  content : d.contentLabels = false
  spec12 : d.spec12 = true
  quadsMode : d.quadsMode = true

/-- The string content that reading a term leaves behind. -/
def lastString : TermView → String → String
  | .simple lex, _ | .lang lex _ _, _ | .datatyped lex _, _ => lex
  | .tripleTerm _ _ o, pending => lastString o pending
  | _, pending => pending

/-- The driver with a finished object. -/
def completed (d : NxDriver) (v : TermView) (built : H × TermCtx × Arena) : NxDriver :=
  { d with
    ctx := built.2.1
    stmt := built.2.2
    pending := lastString v d.pending
    o := some built.1
    state := if d.ttStack = [] then .afterObject else .ttClose }

theorem resolveIri_valid {ctx : TermCtx} (base : ctx.base = none) {i : String}
    (valid : Iri.validateIri i = .ok ()) : ctx.resolveIri i = .ok i := by
  unfold TermCtx.resolveIri
  simp only [base, valid]
  split
  · split <;> rfl
  · split <;> rfl

theorem internalLabel_same (ctx : TermCtx) (surface : String) :
    (ctx.internalLabel surface).2.base = ctx.base ∧
      (ctx.internalLabel surface).2.trusted = ctx.trusted ∧
      (ctx.internalLabel surface).2.labelNs = ctx.labelNs := by
  unfold TermCtx.internalLabel
  split <;> exact ⟨rfl, rfl, rfl⟩

/-- Building changes the labels of the context only. -/
theorem build_same {v : TermView} {ctx : TermCtx} {stmt : Arena} {built : H × TermCtx × Arena}
    (h : build v ctx stmt = some built) :
    built.2.1.base = ctx.base ∧ built.2.1.trusted = ctx.trusted ∧
      built.2.1.labelNs = ctx.labelNs := by
  induction v generalizing ctx stmt built with
  | blankNode label =>
      cases h
      exact internalLabel_same ctx label
  | tripleTerm s p o ihS ihP ihO =>
      simp only [build, Option.bind_eq_bind, Option.bind_eq_some_iff] at h
      obtain ⟨⟨hs, ctxS, stmtS⟩, builtS, ⟨hp, ctxP, stmtP⟩, builtP, ⟨ho, ctxO, stmtO⟩, builtO,
        sb, -, pb, -, ob, -, last⟩ := h
      cases last
      have s := ihS builtS
      have p := ihP builtP
      have o := ihO builtO
      simp only at s p o
      exact ⟨o.1.trans (p.1.trans s.1), o.2.1.trans (p.2.1.trans s.2.1),
        o.2.2.trans (p.2.2.trans s.2.2)⟩
  | _ =>
      cases h
      exact ⟨rfl, rfl, rfl⟩

/-- A node is a single token, which the driver emits. -/
theorem nodeTerm_node {v : TermView} (node : v.isNode = true) (valid : v.Valid) {d : NxDriver}
    (plain : Plain d) : ∃ t built, termTokens v = [t] ∧ build v d.ctx d.stmt = some built ∧
      (t ≠ .dot ∧ ∀ start, NxDriver.nodeTerm start t d =
        .ok (some built.1) { d with ctx := built.2.1, stmt := built.2.2 }) := by
  cases v with
  | iri i =>
      refine ⟨_, _, rfl, rfl, by simp, ?_⟩
      intro start
      simp only [NxDriver.nodeTerm, NxDriver.emitIri, run_bind, run_get,
        resolveIri_valid plain.base valid, NxDriver.liftErr, run_pure, NxDriver.emitTerm,
        run_update, put]
  | blankNode label =>
      refine ⟨_, _, rfl, rfl, by simp, ?_⟩
      intro start
      simp [NxDriver.nodeTerm, NxDriver.emitBlank, run_bind, run_get, plain.content, run_pure,
        NxDriver.emitTerm, run_update, put]
  | _ => cases node

theorem iri_of_isIri {v : TermView} (h : v.isIri = true) : ∃ i, v = .iri i := by
  cases v with
  | iri i => exact ⟨i, rfl⟩
  | _ => cases h

theorem isNode_of_isIri {v : TermView} (h : v.isIri = true) : v.isNode = true := by
  obtain ⟨i, rfl⟩ := iri_of_isIri h
  rfl

/-! ## Objects -/

/-- The tokens that may stand behind an object. -/
inductive Closing : Token → Prop where
  | dot : Closing .dot
  | close : Closing .rParenGtGt
  | iri (i : String) : Closing (.iri i)
  | blankLabel (label : String) : Closing (.blankLabel label)

theorem step_of_handled {d : NxDriver} {start : Position} {t : Token} {m : Nx Unit}
    (h : NxDriver.dispatch start t d = (NxDriver.handled m) d) :
    NxDriver.step start t d = m d := by
  simp only [NxDriver.step, run_bind, h, NxDriver.handled]
  cases m d <;> rfl

/-- A completed object's state handles every token for good. -/
theorem dispatch_completed {d : NxDriver} (state : d.state = .afterObject ∨ d.state = .ttClose)
    (start : Position) (t : Token) :
    ∃ m : Nx Unit, NxDriver.dispatch start t d = (NxDriver.handled m) d := by
  rcases state with state | state
  · refine ⟨NxDriver.onAfterObject start t, ?_⟩
    simp only [NxDriver.dispatch, run_bind, run_get, state]
  · refine ⟨NxDriver.onTtClose start t, ?_⟩
    simp only [NxDriver.dispatch, run_bind, run_get, state]

/-- A simple literal is emitted when the token behind it is handled. -/
theorem step_afterString {d : NxDriver} (state : d.state = .afterString) {t : Token}
    (closing : Closing t) (start : Position) :
    NxDriver.step start t d =
      NxDriver.step start t (completed d (.simple d.pending)
        (put d.ctx d.stmt (encodeSimple d.pending))) := by
  have emitted : NxDriver.dispatch start t d = .ok true
      (completed d (.simple d.pending) (put d.ctx d.stmt (encodeSimple d.pending))) := by
    cases closing <;>
      simp only [NxDriver.dispatch, run_bind, run_get, state, NxDriver.onAfterString,
        NxDriver.emitTerm, run_update, run_pure, NxDriver.completeObject, completed, put,
        lastString]
  obtain ⟨m, dispatched⟩ := dispatch_completed
    (d := completed d (.simple d.pending) (put d.ctx d.stmt (encodeSimple d.pending)))
    (by
      unfold completed
      simp only
      split
      · exact .inl rfl
      · exact .inr rfl) start t
  rw [step_of_handled dispatched]
  simp only [NxDriver.step, run_bind, emitted, if_true, dispatched, NxDriver.handled]
  cases m _ <;> rfl

theorem toLower_of_valid {tag : String} (valid : validateLangTagNormalized tag = .ok ()) :
    tag.toLower = tag := by
  obtain ⟨-, -, -, -, -, lower⟩ := langTag_parts valid
  apply String.toList_injective
  have lowered : tag.toLower = tag.map Char.toLower := rfl
  rw [lowered, String.toList_map]
  refine (List.map_congr_left ?_).trans (List.map_id _)
  intro c mem
  have notUpper := (List.any_eq_false.mp lower) c mem
  unfold Char.toLower
  rw [dif_neg]
  · rfl
  · intro upper
    refine notUpper ?_
    simp only [isAsciiUppercase, inRanges, List.any_cons, List.any_nil, Bool.or_false,
      decide_eq_true_eq]
    exact upper

theorem Plain.of_same {d d' : NxDriver} (plain : Plain d) (base : d'.ctx.base = d.ctx.base)
    (content : d'.contentLabels = d.contentLabels) (spec12 : d'.spec12 = d.spec12)
    (quadsMode : d'.quadsMode = d.quadsMode) : Plain d' :=
  ⟨base.trans plain.base, content.trans plain.content, spec12.trans plain.spec12,
    quadsMode.trans plain.quadsMode⟩

/-- What the driver goes on with behind a term whose parts have been built. -/
def Continues (d : NxDriver) (v : TermView) (ts : List Token) (r : Option NxDriver) : Prop :=
  match build v d.ctx d.stmt with
  | some built => Ends (completed d v built) ts r
  | none => r = none

/-- Reading a string. -/
theorem steps_string {d : NxDriver} (state : d.state = .object) (lex : String) :
    Steps d (.string lex false false) { d with pending := lex, state := .afterString } := by
  refine ⟨by simp [state], ?_, rfl⟩
  intro start
  simp [NxDriver.step, NxDriver.dispatch, run_bind, run_get, state, NxDriver.handled,
    NxDriver.onObject, NxDriver.keepString, run_update, run_pure]

/-- Reading a language tag behind a string. -/
theorem steps_tag {d : NxDriver} (state : d.state = .afterString) (plain : Plain d) {tag : String}
    (dir : Option Dir) (valid : validateLangTagNormalized tag = .ok ()) :
    Steps d (tagToken tag dir) (completed d (.lang d.pending tag dir)
      (put d.ctx d.stmt (encodeLang d.pending tag dir))) := by
  refine ⟨by simp [state], ?_, rfl⟩
  intro start
  have emitted : ∀ name : String, name.toLower = tag → ∀ dir : Option Dir,
      NxDriver.emitLang name dir d = .ok () (completed d (.lang d.pending tag dir)
        (put d.ctx d.stmt (encodeLang d.pending tag dir))) := by
    intro name lower dir
    simp [NxDriver.emitLang, run_bind, run_get, NxDriver.emitTerm, run_update, run_pure,
      NxDriver.completeObject, completed, put, langBytes, lower, lastString]
  have tagged : ∀ dir, NxDriver.step start (.langTag tag dir) d =
      .ok () (completed d (.lang d.pending tag dir)
        (put d.ctx d.stmt (encodeLang d.pending tag dir))) := by
    intro dir
    simp [NxDriver.step, NxDriver.dispatch, run_bind, run_get, state, NxDriver.onAfterString,
      NxDriver.onLangTag, plain.spec12, emitted tag (toLower_of_valid valid), run_pure]
  unfold tagToken
  split
  · rename_i none
    subst none
    unfold directiveAt
    have word : ∀ name : String, strBytes tag = strBytes name → tag = name := by
      intro name same
      rw [← textOf_strBytes tag, same, textOf_strBytes]
    split
    · rename_i isPrefix
      have lower := emitted "prefix" (by rw [word _ isPrefix]; decide +kernel) none
      simp [NxDriver.step, NxDriver.dispatch, run_bind, run_get, state, NxDriver.onAfterString,
        lower, run_pure]
    split
    · rename_i isBase
      have lower := emitted "base" (by rw [word _ isBase]; decide +kernel) none
      simp [NxDriver.step, NxDriver.dispatch, run_bind, run_get, state, NxDriver.onAfterString,
        lower, run_pure]
    split
    · rename_i isVersion
      have lower := emitted "version" (by rw [word _ isVersion]; decide +kernel) none
      simp [NxDriver.step, NxDriver.dispatch, run_bind, run_get, state, NxDriver.onAfterString,
        lower, run_pure]
    · exact tagged none
  · exact tagged dir

/-- Reading a datatype behind a string. -/
theorem ends_datatype {d : NxDriver} (state : d.state = .afterString) (plain : Plain d)
    {dt : String} (valid : (TermView.datatyped d.pending dt).Valid) {ts : List Token}
    {r : Option NxDriver}
    (ends : Ends (completed d (.datatyped d.pending dt)
      (put d.ctx d.stmt (encodeDatatype d.pending dt))) ts r) :
    Ends d (.doubleCaret :: .iri dt :: ts) r := by
  obtain ⟨iriOk, ordinary⟩ := valid
  have typed : typedBytes d.pending dt = .ok (encodeDatatype d.pending dt) := by
    unfold typedBytes
    rw [if_neg fun same => ordinary (.inl same), if_neg fun same => ordinary (.inr same)]
  have caret : Steps d .doubleCaret { d with state := .datatype } := by
    refine ⟨by simp [state], ?_, rfl⟩
    intro start
    simp [NxDriver.step, NxDriver.dispatch, run_bind, run_get, state, NxDriver.onAfterString,
      NxDriver.setState, run_update, run_pure]
  have iri : Steps { d with state := .datatype } (.iri dt)
      (completed d (.datatyped d.pending dt)
        (put d.ctx d.stmt (encodeDatatype d.pending dt))) := by
    refine ⟨by simp, ?_, rfl⟩
    intro start
    simp [NxDriver.step, NxDriver.dispatch, run_bind, run_get, NxDriver.handled,
      NxDriver.onDatatype, NxDriver.emitTyped, resolveIri_valid plain.base iriOk,
      NxDriver.liftErr, typed, run_pure, NxDriver.emitTerm, run_update,
      NxDriver.completeObject, completed, put, lastString]
  exact .cons caret (.cons iri ends)

/-- Opening a triple term. -/
theorem steps_open {d : NxDriver} (state : d.state = .object) (plain : Plain d)
    (room : d.ttStack.length < maxTripleTermDepth) :
    Steps d .ltLtParen { d with ttStack := (none, none) :: d.ttStack, state := .ttSubject } := by
  refine ⟨by simp [state], ?_, rfl⟩
  intro start
  have fits : ¬ maxTripleTermDepth ≤ d.ttStack.length := Nat.not_le.mpr room
  simp [NxDriver.step, NxDriver.dispatch, run_bind, run_get, state, NxDriver.handled,
    NxDriver.onObject, NxDriver.openTripleTerm, plain.spec12, fits, run_update, run_pure]

/-- The subject of a triple term. -/
theorem steps_ttSubject {d : NxDriver} (state : d.state = .ttSubject) (plain : Plain d)
    {frame : Option H × Option H} {frames : List (Option H × Option H)}
    (stack : d.ttStack = frame :: frames) {v : TermView} (node : v.isNode = true)
    (valid : v.Valid) : ∃ t built, termTokens v = [t] ∧ build v d.ctx d.stmt = some built ∧
      Steps d t { d with
        ctx := built.2.1
        stmt := built.2.2
        ttStack := (some built.1, frame.2) :: frames
        state := .ttPredicate } := by
  obtain ⟨t, built, tokens, isBuilt, -, emitted⟩ := nodeTerm_node node valid plain
  refine ⟨t, built, tokens, isBuilt, by simp [state], ?_, (build_same isBuilt).2.1⟩
  intro start
  simp [NxDriver.step, NxDriver.dispatch, run_bind, run_get, state, NxDriver.handled,
    NxDriver.onTtSubject, NxDriver.nodeOr, emitted, NxDriver.updateTt, stack, run_update,
    run_pure]

/-- The predicate of a triple term. -/
theorem steps_ttPredicate {d : NxDriver} (state : d.state = .ttPredicate) (plain : Plain d)
    {frame : Option H × Option H} {frames : List (Option H × Option H)}
    (stack : d.ttStack = frame :: frames) {v : TermView} (iri : v.isIri = true)
    (valid : v.Valid) : ∃ t built, termTokens v = [t] ∧ build v d.ctx d.stmt = some built ∧
      Steps d t { d with
        ctx := built.2.1
        stmt := built.2.2
        ttStack := (frame.1, some built.1) :: frames
        state := .object } := by
  obtain ⟨i, rfl⟩ := iri_of_isIri iri
  refine ⟨_, _, rfl, rfl, by simp [state], ?_, rfl⟩
  intro start
  simp [NxDriver.step, NxDriver.dispatch, run_bind, run_get, state, NxDriver.handled,
    NxDriver.onTtPredicate, NxDriver.iriOr, NxDriver.emitIri, resolveIri_valid plain.base valid,
    NxDriver.liftErr, NxDriver.emitTerm, put, NxDriver.updateTt, stack, run_update, run_pure]

/-- Closing a triple term slices its three components out of the arena. -/
theorem ends_close {d : NxDriver} (state : d.state = .ttClose) {hs hp ho : H}
    {frames : List (Option H × Option H)} (stack : d.ttStack = (some hs, some hp) :: frames)
    (object : d.o = some ho) {ts : List Token} {r : Option NxDriver}
    (goes : match (do
        let sb ← d.stmt.get hs
        let pb ← d.stmt.get hp
        let ob ← d.stmt.get ho
        return put d.ctx d.stmt (encodeTripleTerm sb pb ob) : Option (H × TermCtx × Arena)) with
      | some built => Ends { d with
          ctx := built.2.1
          stmt := built.2.2
          ttStack := frames
          o := some built.1
          state := if frames = [] then .afterObject else .ttClose } ts r
      | none => r = none) :
    Ends d (.rParenGtGt :: ts) r := by
  have opened : ∀ start, NxDriver.step start .rParenGtGt d =
      match NxDriver.emitTripleTerm hs hp ho { d with ttStack := frames, o := none } with
      | .ok h d' => .ok () { d' with
          o := some h
          state := if d'.ttStack = [] then .afterObject else .ttClose }
      | .err e d' => .err e d'
      | .panic message d' => .panic message d' := by
    intro start
    have closing : NxDriver.dispatch start .rParenGtGt d =
        (NxDriver.handled NxDriver.closeTripleTerm) d := by
      simp only [NxDriver.dispatch, run_bind, run_get, state, NxDriver.onTtClose]
    rw [step_of_handled closing]
    simp only [NxDriver.closeTripleTerm, run_bind, run_get, stack, object, run_expect,
      run_update, NxDriver.completeObject]
    cases NxDriver.emitTripleTerm hs hp ho { d with ttStack := frames, o := none } <;> rfl
  have driving : d.state ≠ .recover := by simp [state]
  have sliced : ∀ h : H, NxDriver.bytesOf h { d with ttStack := frames, o := none } =
      match d.stmt.get h with
      | some b => .ok b { d with ttStack := frames, o := none }
      | none => .panic "range out of bounds" { d with ttStack := frames, o := none } := by
    intro h
    simp only [NxDriver.bytesOf, run_bind, run_get, run_expect]
    cases d.stmt.get h <;> rfl
  have fails : (∀ start, ∃ message d', NxDriver.step start .rParenGtGt d = .panic message d') →
      r = none → Ends d (.rParenGtGt :: ts) r := by
    rintro crash rfl
    exact .panic driving crash
  cases gs : d.stmt.get hs with
  | none =>
      rw [gs] at goes
      refine fails ?_ goes
      intro start
      simp [opened, NxDriver.emitTripleTerm, run_bind, sliced, gs]
  | some sb =>
      cases gp : d.stmt.get hp with
      | none =>
          rw [gs, gp] at goes
          refine fails ?_ goes
          intro start
          simp [opened, NxDriver.emitTripleTerm, run_bind, sliced, gs, gp]
      | some pb =>
          cases go : d.stmt.get ho with
          | none =>
              rw [gs, gp, go] at goes
              refine fails ?_ goes
              intro start
              simp [opened, NxDriver.emitTripleTerm, run_bind, sliced, gs, gp, go]
          | some ob =>
              rw [gs, gp, go] at goes
              have closed : Steps d .rParenGtGt { d with
                  stmt := d.stmt.append (encodeTripleTerm sb pb ob)
                  ttStack := frames
                  o := some ((d.stmt.append (encodeTripleTerm sb pb ob)).handleFrom d.stmt.mark)
                  state := if frames = [] then .afterObject else .ttClose } := by
                refine ⟨driving, ?_, rfl⟩
                intro start
                simp [opened, NxDriver.emitTripleTerm, run_bind, sliced, gs, gp, go,
                  NxDriver.emitTerm, run_get, run_update, run_pure]
              exact .cons closed goes

theorem Ends.of_step_eq {d d' : NxDriver} {t : Token} {ts : List Token} {r : Option NxDriver}
    (ends : Ends d' (t :: ts) r) (driving : d.state ≠ .recover)
    (same : ∀ start, NxDriver.step start t d = NxDriver.step start t d')
    (trusted : d'.ctx.trusted = d.ctx.trusted) : Ends d (t :: ts) r := by
  cases ends with
  | cons first more =>
      refine .cons ⟨driving, ?_, first.trusted.trans trusted⟩ more
      intro start
      rw [same, first.step]
  | panic _ crash =>
      refine .panic driving ?_
      intro start
      rw [same]
      exact crash start

/-- A node in object position. -/
theorem steps_objectNode {d : NxDriver} (state : d.state = .object) (plain : Plain d)
    {v : TermView} (node : v.isNode = true) (valid : v.Valid) :
    ∃ t built, termTokens v = [t] ∧ build v d.ctx d.stmt = some built ∧
      Steps d t (completed d v built) := by
  obtain ⟨t, built, tokens, isBuilt, -, emitted⟩ := nodeTerm_node node valid plain
  refine ⟨t, built, tokens, isBuilt, by simp [state], ?_, (build_same isBuilt).2.1⟩
  intro start
  cases v with
  | iri i =>
      cases tokens
      simp [NxDriver.step, NxDriver.dispatch, run_bind, run_get, state, NxDriver.handled,
        NxDriver.onObject, NxDriver.nodeOr, emitted, run_pure, NxDriver.completeObject,
        run_update, completed, lastString]
  | blankNode label =>
      cases tokens
      simp [NxDriver.step, NxDriver.dispatch, run_bind, run_get, state, NxDriver.handled,
        NxDriver.onObject, NxDriver.nodeOr, emitted, run_pure, NxDriver.completeObject,
        run_update, completed, lastString]
  | _ => cases node

theorem ends_objectNode {d : NxDriver} (state : d.state = .object) (plain : Plain d)
    {v : TermView} (node : v.isNode = true) (valid : v.Valid) {ts : List Token}
    {r : Option NxDriver} (goes : Continues d v ts r) : Ends d (termTokens v ++ ts) r := by
  obtain ⟨t, built, tokens, isBuilt, steps⟩ := steps_objectNode state plain node valid
  unfold Continues at goes
  rw [isBuilt] at goes
  rw [tokens]
  exact .cons steps goes

/-- By induction on the term: in object position the driver builds it and goes on with the
token behind it. -/
theorem ends_object {v : TermView} (valid : v.Valid) {d : NxDriver} (state : d.state = .object)
    (plain : Plain d) (room : d.ttStack.length + v.depth ≤ maxTripleTermDepth) {t : Token}
    (closing : Closing t) {ts : List Token} {r : Option NxDriver}
    (goes : Continues d v (t :: ts) r) : Ends d (termTokens v ++ t :: ts) r := by
  induction v generalizing d t ts r with
  | iri i => exact ends_objectNode state plain rfl valid goes
  | blankNode label => exact ends_objectNode state plain rfl valid goes
  | simple lex =>
      refine .cons (steps_string state lex) ?_
      refine Ends.of_step_eq goes (by simp) ?_ rfl
      intro start
      exact step_afterString rfl closing start
  | lang lex tag dir =>
      have kept := steps_string state lex
      have tagged := steps_tag
        (show ({ d with pending := lex, state := .afterString } : NxDriver).state =
          .afterString from rfl) (plain.of_same rfl rfl rfl rfl) dir valid
      exact .cons kept (.cons tagged goes)
  | datatyped lex dt =>
      refine .cons (steps_string state lex) ?_
      exact ends_datatype (d := { d with pending := lex, state := .afterString }) rfl
        (plain.of_same rfl rfl rfl rfl) valid goes
  | tripleTerm s p o ihS ihP ihO =>
      obtain ⟨⟨node, iri⟩, validS, validP, validO⟩ := valid
      simp only [TermView.depth] at room
      have opened := steps_open state plain (by omega)
      obtain ⟨ts', builtS, tokensS, isBuiltS, stepsS⟩ := steps_ttSubject
        (d := { d with ttStack := (none, none) :: d.ttStack, state := .ttSubject }) rfl
        (plain.of_same rfl rfl rfl rfl) rfl node validS
      have sameS := build_same isBuiltS
      obtain ⟨tp', builtP, tokensP, isBuiltP, stepsP⟩ := steps_ttPredicate
        (d := { d with
          ctx := builtS.2.1
          stmt := builtS.2.2
          ttStack := (some builtS.1, none) :: d.ttStack
          state := .ttPredicate }) rfl
        (plain.of_same sameS.1 rfl rfl rfl) rfl iri validP
      have sameP := build_same isBuiltP
      rw [termTokens, tokensS, tokensP]
      simp only [List.cons_append, List.nil_append, List.append_assoc]
      refine .cons opened (.cons stepsS (.cons stepsP ?_))
      refine ihO (d := { d with
        ctx := builtP.2.1
        stmt := builtP.2.2
        ttStack := (some builtS.1, some builtP.1) :: d.ttStack
        state := .object }) validO rfl
        (plain.of_same (sameP.1.trans sameS.1) rfl rfl rfl) ?_ .close ?_
      · simp only [List.length_cons]
        omega
      · unfold Continues at goes ⊢
        simp only [build, isBuiltS, isBuiltP, Option.bind_eq_bind, Option.bind_some] at goes ⊢
        cases builtO : build o builtP.2.1 builtP.2.2 with
        | none =>
            rw [builtO] at goes
            exact goes
        | some built =>
            rw [builtO] at goes
            refine ends_close ?_ rfl rfl goes
            rfl

end Graphy.Turtle
