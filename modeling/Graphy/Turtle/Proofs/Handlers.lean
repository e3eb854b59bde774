import Graphy.Turtle.Proofs.Delivery

/-!
# Every state's handler keeps the parser coherent

One lemma for each handler: from a coherent parser in the handler's state no token makes
it panic, and what it leaves is coherent; an error leaves a coherent parser as well,
unless the frame of a quoted triple was taken off before its triple term was refused.
-/

namespace Graphy.Turtle

open Graphy.Comp

namespace Parser

/-- Coherent afterwards, and after an error too unless `deep`. -/
abbrev Steps {α : Type} (m : M α) (deep : Prop) (st : Parser) : Prop :=
  safe m (fun _ st' => st'.Coherent) (fun st' => st'.Coherent ∨ deep) st

variable {α : Type} {st : Parser} {deep : Prop} {t : Token}

/-! ## Shared pieces -/

theorem steps_err {message : String} (coherent : st.Coherent) :
    Steps (err message : M α) deep st := safe_err (Or.inl coherent)

theorem steps_done {m : M Unit} (h : Steps m deep st) : Steps (done m) deep st :=
  safe_bind (fun _ => grows_pure _) (safe_mono h (fun _ _ coherent => safe_pure coherent)
    fun _ e => e)

theorem steps_require12 {what : String} {f : Unit → M α} (coherent : st.Coherent)
    (grows : Grows (f ())) (h : Steps (f ()) deep st) : Steps (require12 what >>= f) deep st := by
  refine safe_bind (fun _ => grows) ?_
  apply safe_get
  split
  · exact safe_pure h
  · exact safe_err (Or.inl coherent)

theorem Coherent.setState {s : S} (coherent : st.Coherent)
    (fits : StateFits { st with state := s } s) : Coherent { st with state := s } :=
  ⟨{ coherent.range with }, coherent.nested, fits⟩

theorem steps_setState {s : S} (coherent : st.Coherent)
    (fits : StateFits { st with state := s } s) : Steps (setState s) deep st :=
  fun _ => coherent.setState fits

theorem steps_setBracket {ret : Ret} (coherent : st.Coherent)
    (delivers : Delivers { st with bracketRet := ret, state := .bracket } ret) :
    Steps (setBracket ret) deep st :=
  fun _ => ⟨{ coherent.range with }, coherent.nested, delivers⟩

theorem grows_setState (s : S) : Grows (setState s) := grows_update fun _ => rfl

theorem grows_setBracket (ret : Ret) : Grows (setBracket ret) := grows_update fun _ => rfl

theorem grows_nestingCheck : Grows nestingCheck := by
  apply grows_bind grows_get
  intro st
  split
  · exact grows_err _
  · exact grows_pure _

theorem grows_pushRt (ret : Ret) : Grows (pushRt ret) :=
  grows_bind grows_nestingCheck fun _ => grows_update fun _ => rfl

theorem grows_pushTt (ret : Ret) : Grows (pushTt ret) :=
  grows_bind grows_nestingCheck fun _ => grows_update fun _ => rfl

/-- A frame pushed onto a coherent parser. -/
theorem InRange.push {f : Frame} (range : st.InRange) (all : f.All st.Valid) :
    InRange { st with stack := f :: st.stack } :=
  { range with
    stack := fun g mem => by
      rcases List.mem_cons.mp mem with rfl | older
      · exact all
      · exact range.stack g older }

theorem all_none {V : H → Prop} : ∀ h ∈ (none : Option H), V h := fun _ mem => by cases mem

theorem steps_nestingCheck {f : Unit → M α} (coherent : st.Coherent) (grows : Grows (f ()))
    (h : Steps (f ()) deep st) : Steps (nestingCheck >>= f) deep st := by
  refine safe_bind (fun _ => grows) ?_
  apply safe_get
  split
  · exact safe_err (Or.inl coherent)
  · exact safe_pure h

theorem steps_pushRt {ret : Ret} (coherent : st.Coherent)
    (accepts : Accepts st.subject st.predicate st.stack ret) : Steps (pushRt ret) deep st := by
  have range := coherent.range.push (f := Frame.rt ⟨none, none, none, none⟩ ret)
    ⟨all_none, all_none, all_none, all_none⟩
  unfold pushRt
  apply steps_nestingCheck coherent
  · exact grows_update fun _ => rfl
  · exact fun _ => ⟨{ range with }, ⟨accepts, coherent.nested⟩, trivial⟩

theorem steps_pushTt {ret : Ret} (coherent : st.Coherent)
    (accepts : Accepts st.subject st.predicate st.stack ret) : Steps (pushTt ret) deep st := by
  have range := coherent.range.push (f := Frame.tt ⟨none, none, none, none⟩ ret)
    ⟨all_none, all_none, all_none, all_none⟩
  unfold pushTt
  apply steps_nestingCheck coherent
  · exact grows_update fun _ => rfl
  · exact fun _ => ⟨{ range with }, ⟨accepts, coherent.nested⟩, trivial⟩

/-- A node delivered to a target that is no reifier, or what other tokens do. -/
theorem steps_nodeOr {ret : Ret} {other : M Unit} (coherent : st.Coherent)
    (delivers : st.Delivers ret) (ne : ret ≠ .annoReifier) (grows : Grows other)
    (h : isNode t = false → Steps other deep st) : Steps (nodeOr t ret other) deep st := by
  refine safe_bind ?_ ?_
  · intro found
    cases found with
    | some hd => exact grows_deliver _ _ _
    | none => exact grows
  · apply safe_simpleNode t (Or.inl coherent) h
    intro hd st' _ quiet valid
    have range := coherent.range.quiet quiet
    have same := quiet.same
    rw [same] at range valid ⊢
    exact safe_deliver valid range coherent.nested delivers fun anno => absurd anno ne

/-! ## Ends -/

/-- A statement starts afresh. -/
theorem coherent_start (st : Parser) {stack : List Frame} (graph : Option Bytes)
    (top : StatementTop stack) : Coherent { st.resetStatement with
      stack := stack, graph := graph, state := .statement } := by
  refine ⟨?_, StatementTop.nested top _ _, top⟩
  constructor
  · exact all_none
  · exact all_none
  · exact all_none
  · exact fun _ _ _ last => by cases last
  · exact all_none
  · exact all_none
  · intro f mem
    rcases top with rfl | rfl
    · cases mem
    · rcases List.mem_singleton.mp mem with rfl
      trivial

theorem steps_endStatement (coherent : st.Coherent) : Steps endStatement deep st := by
  have nested := coherent.nested
  apply safe_get
  split
  · rename_i stack
    have top : StatementTop st.stack := Or.inl stack
    exact fun _ => coherent_start st st.graph top
  · rename_i rest stack
    rw [stack] at nested
    have top : StatementTop st.stack := Or.inr (stack.trans (congrArg _ nested))
    exact fun _ => coherent_start st st.graph top
  · exact steps_err coherent

theorem grows_closeGraph : Grows closeGraph := by
  apply grows_bind grows_get
  intro st
  split
  · exact grows_update fun _ => rfl
  · exact grows_err _

theorem steps_closeGraph (coherent : st.Coherent) : Steps closeGraph deep st := by
  have nested := coherent.nested
  apply safe_get
  split
  · rename_i rest stack
    rw [stack] at nested
    have range := coherent.range.pop stack
    have empty : rest = [] := nested
    rw [empty] at range ⊢
    exact fun _ => ⟨{ range with }, trivial, Or.inl rfl⟩
  · exact steps_err coherent

theorem steps_endGraphStatement (coherent : st.Coherent) : Steps endGraphStatement deep st :=
  safe_bind (fun _ => grows_closeGraph) (safe_mono (steps_endStatement coherent)
    (fun _ _ coherent' => steps_closeGraph coherent') fun _ e => e)

theorem steps_closeCollection (coherent : st.Coherent) : Steps closeCollection deep st :=
  safe_mono (safe_closeCollection coherent.range coherent.nested) (fun _ _ h => h)
    fun _ same => Or.inl (same ▸ coherent)

theorem steps_closeBnode (coherent : st.Coherent) : Steps closeBnode deep st :=
  safe_mono (safe_closeBnode coherent.range coherent.nested) (fun _ _ h => h)
    fun _ same => Or.inl (same ▸ coherent)

theorem steps_closeAnno (coherent : st.Coherent) : Steps closeAnno deep st :=
  safe_mono (safe_closeAnno coherent.range coherent.nested) (fun _ _ h => h)
    fun _ same => Or.inl (same ▸ coherent)

/-! ## Directives and statements -/

theorem stack_of_not_inGraph (top : StatementTop st.stack) (out : ¬ st.inGraph = true) :
    st.stack = [] := by
  rcases top with empty | graph
  · exact empty
  · unfold inGraph at out
    rw [graph] at out
    exact absurd rfl out

theorem steps_directive {s : S} (coherent : st.Coherent) (top : StatementTop st.stack)
    (fits : st.stack = [] → StateFits { st with state := s } s) :
    Steps (directive s) deep st := by
  apply safe_get
  split
  · exact steps_err coherent
  · rename_i out
    exact steps_setState coherent (fits (stack_of_not_inGraph top out))

theorem steps_versionDirective {sparql : Bool} (coherent : st.Coherent)
    (top : StatementTop st.stack) : Steps (versionDirective sparql) deep st := by
  apply safe_get
  split
  · exact steps_err coherent
  · rename_i out
    apply steps_require12 coherent
    · exact grows_setState _
    · exact steps_setState coherent (stack_of_not_inGraph top out)

theorem steps_openStatement {h : H} (coherent : st.Coherent) (valid : st.Valid h)
    (top : StatementTop st.stack) : Steps (openStatement h) deep st := by
  have range := coherent.range
  intro _
  show Coherent (if st.trig && !st.inGraph then _ else _)
  split
  · rename_i outside
    rw [Bool.and_eq_true, Bool.not_eq_true'] at outside
    have empty := stack_of_not_inGraph top (by rw [outside.2]; exact Bool.false_ne_true)
    exact ⟨{ range with pendingNode := all_some valid }, coherent.nested, empty, rfl⟩
  · exact ⟨{ range with subject := all_some valid }, StatementTop.nested top _ _, rfl,
      StatementTop.polTop top⟩

theorem outside_stack (top : StatementTop st.stack) (outside : (st.trig && !st.inGraph) = true) :
    st.stack = [] := by
  rw [Bool.and_eq_true, Bool.not_eq_true'] at outside
  exact stack_of_not_inGraph top (by rw [outside.2]; exact Bool.false_ne_true)

theorem steps_statementNode (coherent : st.Coherent) (top : StatementTop st.stack)
    (node : isNode t = true) :
    Steps (do let h ← expectNode t; openStatement h) deep st := by
  refine safe_bind (fun _ => grows_update fun st => ?_) ?_
  · split <;> rfl
  · apply safe_expectNode node (Or.inl coherent)
    intro hd st' quiet valid
    apply steps_openStatement (coherent.builds quiet.builds) valid
    rw [quiet.same]
    exact top

theorem steps_onStatement (coherent : st.Coherent) (state : st.state = .statement) :
    Steps (onStatement t) deep st := by
  have top : StatementTop st.stack := by
    have fits := coherent.fits
    rw [state] at fits
    exact fits
  unfold onStatement
  split
  · exact steps_directive coherent top id
  · exact steps_directive coherent top id
  · exact steps_directive coherent top id
  · exact steps_directive coherent top id
  · apply safe_get
    split
    · rename_i outside
      exact steps_setState coherent (outside_stack top outside)
    · exact steps_err coherent
  · apply safe_get
    split
    · rename_i outside
      have empty := outside_stack top outside
      have range := coherent.range.push (f := Frame.graph) trivial
      refine fun _ => ⟨{ range with }, empty, ?_⟩
      show StateFits _ st.state
      rw [state]
      exact Or.inr (congrArg _ empty)
    · exact steps_err coherent
  · apply safe_get
    split
    · exact steps_closeGraph coherent
    · exact steps_err coherent
  · exact steps_statementNode coherent top rfl
  · exact steps_statementNode coherent top rfl
  · exact steps_statementNode coherent top rfl
  · apply safe_get
    apply steps_setBracket coherent
    by_cases outside : (st.trig && !st.inGraph) = true
    · rw [if_pos outside]
      exact outside_stack top outside
    · rw [if_neg outside]
      exact top
  · have range := coherent.range.push (f := Frame.collection none none .subject)
      ⟨all_none, all_none⟩
    exact fun _ => ⟨{ range with }, ⟨top, coherent.nested⟩, trivial⟩
  · apply steps_require12 coherent (grows_pushRt _)
    exact steps_pushRt coherent top
  · exact steps_versionDirective coherent top
  · exact steps_versionDirective coherent top
  · exact steps_err coherent

theorem steps_onMaybeGraph (coherent : st.Coherent) (state : st.state = .maybeGraph) :
    Steps (onMaybeGraph t) deep st := by
  have fits := coherent.fits
  rw [state] at fits
  obtain ⟨empty, pending⟩ := fits
  obtain ⟨node, found⟩ := Option.isSome_iff_exists.mp pending
  have valid := coherent.range.pendingNode node found
  unfold onMaybeGraph
  split
  · obtain ⟨label, read⟩ := bytesOf_of_valid valid
    apply safe_get
    simp only [found]
    apply safe_expect
    intro _
    unfold wp
    rw [bind_ok read]
    exact coherent_start st (some label) (Or.inr (congrArg _ empty))
  · have range := coherent.range
    refine fun _ => ⟨{ range with subject := range.pendingNode, pendingNode := all_none }, ?_,
      pending, ?_⟩
    · show Nested _ _ st.stack
      rw [empty]
      trivial
    · show PolTop st.stack
      rw [empty]
      trivial

theorem steps_onGraphName (coherent : st.Coherent) (state : st.state = .graphName) :
    Steps (onGraphName t) deep st := by
  have fits := coherent.fits
  rw [state] at fits
  have delivers : st.Delivers .graphName := fits
  apply steps_nodeOr coherent delivers (fun same => by cases same)
  · split
    · exact grows_setBracket _
    · exact grows_err _
  · intro _
    split
    · exact steps_setBracket coherent fits
    · exact steps_err coherent

theorem steps_onGraphOpen (coherent : st.Coherent) (state : st.state = .graphOpen) :
    Steps (onGraphOpen t) deep st := by
  have fits := coherent.fits
  rw [state] at fits
  have empty : st.stack = [] := fits
  unfold onGraphOpen
  split
  · have range := coherent.range.push (f := Frame.graph) trivial
    exact fun _ => ⟨{ range with }, empty, Or.inr (congrArg _ empty)⟩
  · exact steps_err coherent

theorem fits_afterDirective {sparql : Bool} {st : Parser} (empty : st.stack = []) :
    StateFits st (afterDirective sparql) := by
  cases sparql with
  | true => exact Or.inl empty
  | false => exact empty

theorem steps_onPrefixName {sparql : Bool} (coherent : st.Coherent)
    (state : st.state = .prefixName sparql) : Steps (onPrefixName sparql t) deep st := by
  have fits := coherent.fits
  rw [state] at fits
  unfold onPrefixName
  split
  · split
    · exact steps_err coherent
    · have range := coherent.range
      exact fun _ => ⟨{ range with }, coherent.nested, fits⟩
  · exact steps_err coherent

theorem steps_onPrefixIri {sparql : Bool} (coherent : st.Coherent)
    (state : st.state = .prefixIri sparql) : Steps (onPrefixIri sparql t) deep st := by
  have fits := coherent.fits
  rw [state] at fits
  unfold onPrefixIri
  split
  · apply safe_get
    apply safe_liftErr
    · intro abs _
      have range := coherent.range
      exact fun _ => ⟨{ range with }, coherent.nested, fits_afterDirective fits⟩
    · exact Or.inl coherent
  · exact steps_err coherent

theorem steps_onBaseIri {sparql : Bool} (coherent : st.Coherent)
    (state : st.state = .baseIri sparql) : Steps (onBaseIri sparql t) deep st := by
  have fits := coherent.fits
  rw [state] at fits
  unfold onBaseIri
  split
  · apply safe_get
    apply safe_liftErr
    · intro ctx _
      have range := coherent.range
      exact fun _ => ⟨{ range with }, coherent.nested, fits_afterDirective fits⟩
    · exact Or.inl coherent
  · exact steps_err coherent

theorem steps_onDirectiveDot (coherent : st.Coherent) (state : st.state = .directiveDot) :
    Steps (onDirectiveDot t) deep st := by
  have fits := coherent.fits
  rw [state] at fits
  unfold onDirectiveDot
  split
  · exact steps_setState coherent (Or.inl fits)
  · exact steps_err coherent

theorem steps_onVersionString {sparql : Bool} (coherent : st.Coherent)
    (state : st.state = .versionString sparql) : Steps (onVersionString sparql t) deep st := by
  have fits := coherent.fits
  rw [state] at fits
  unfold onVersionString
  split
  · exact steps_setState coherent (fits_afterDirective fits)
  · exact steps_err coherent

end Parser

end Graphy.Turtle
