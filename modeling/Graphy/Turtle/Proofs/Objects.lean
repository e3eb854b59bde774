import Graphy.Turtle.Proofs.Handlers

/-!
# Handlers inside a statement

Predicates, objects, literals, annotations, property lists and quoted triples.
-/

namespace Graphy.Turtle

open Graphy.Comp

namespace Parser

variable {st : Parser} {deep : Prop} {t : Token}

/-! ## Predicates and objects -/

/-- A predicate was read. -/
theorem coherent_predicate {p : H} (coherent : st.Coherent) (valid : st.Valid p)
    (subject : st.subject.isSome = true) (top : PolTop st.stack) :
    Coherent { st with predicate := some p, state := .object } :=
  ⟨{ coherent.range with predicate := all_some valid },
    Nested.of_polTop top coherent.nested _ _, ObjectReady.of_polTop top subject rfl⟩

theorem steps_predicate {m : M H} (coherent : st.Coherent)
    (subject : st.subject.isSome = true) (top : PolTop st.stack)
    (h : ∀ (Q : H → Parser → Prop) (E : Parser → Prop), E st →
      (∀ hd st', Quiet st st' → st'.Valid hd → Q hd st') → safe m Q E st) :
    Steps (do let h ← m; update fun st => { st with predicate := some h, state := .object })
      deep st := by
  refine safe_bind (fun _ => grows_update fun _ => rfl) ?_
  apply h _ _ (Or.inl coherent)
  intro hd st' quiet valid
  have coherent' := coherent.builds quiet.builds
  have same := quiet.same
  have subject' : st'.subject.isSome = true := by rw [same]; exact subject
  have top' : PolTop st'.stack := by rw [same]; exact top
  exact fun _ => coherent_predicate coherent' valid subject' top'

theorem steps_onVerb (coherent : st.Coherent)
    (state : st.state = .verb ∨ st.state = .verbOrDot ∨ st.state = .afterSemi) :
    Steps (onVerb t) deep st := by
  have fits := coherent.fits
  have verb : st.subject.isSome = true ∧ PolTop st.stack := by
    rcases state with state | state | state
    · rw [state] at fits
      exact fits
    · rw [state] at fits
      exact ⟨fits.1, StatementTop.polTop fits.2⟩
    · rw [state] at fits
      exact fits
  obtain ⟨subject, top⟩ := verb
  unfold onVerb
  split
  · exact steps_predicate coherent subject top fun _ _ _ node => safe_emitTerm _ node
  · exact steps_predicate coherent subject top fun _ _ failed node => safe_expectNode rfl failed node
  · exact steps_predicate coherent subject top fun _ _ failed node => safe_expectNode rfl failed node
  · apply safe_get
    split
    · exact safe_pure coherent
    · exact steps_err coherent
  · apply safe_get
    split
    · exact steps_endStatement coherent
    · exact steps_err coherent
  · apply safe_get
    split
    · exact steps_closeBnode coherent
    · exact steps_err coherent
  · apply safe_get
    split
    · exact steps_closeAnno coherent
    · exact steps_err coherent
  · apply safe_get
    split
    · exact steps_endGraphStatement coherent
    · exact steps_err coherent
  · exact steps_err coherent

theorem steps_keepString {content : String} {ret : Ret} (coherent : st.Coherent)
    (kind : ret = .object ∨ ret = .rtObject ∨ ret = .ttObject)
    (accepts : Accepts st.subject st.predicate st.stack ret) :
    Steps (keepString content ret) deep st := by
  have range := coherent.range
  refine fun _ => ⟨{ range with }, coherent.nested, kind, ?_⟩
  rcases kind with rfl | rfl | rfl <;> exact accepts

/-- Tokens that spell a number or a boolean. -/
def isShorthand : Token → Bool
  | .integer _ | .decimal _ | .double _ | .kwTrue | .kwFalse => true
  | _ => false

theorem safe_shorthandToken {Q : H → Parser → Prop} {E : Parser → Prop}
    (shorthand : isShorthand t = true)
    (h : ∀ hd st', Quiet st st' → st'.Valid hd → Q hd st') :
    safe (shorthandToken t) Q E st := by
  cases t with
  | integer text => exact safe_emitTerm _ h
  | decimal text => exact safe_emitTerm _ h
  | double text => exact safe_emitTerm _ h
  | kwTrue => exact safe_emitTerm _ h
  | kwFalse => exact safe_emitTerm _ h
  | _ => cases shorthand

theorem steps_deliverShorthand {ret : Ret} (coherent : st.Coherent)
    (shorthand : isShorthand t = true)
    (accepts : Accepts st.subject st.predicate st.stack ret) :
    Steps (deliverShorthand t ret) deep st := by
  refine safe_bind (fun _ => grows_deliver _ _ _) ?_
  apply safe_shorthandToken shorthand
  intro hd st' quiet valid
  have range := coherent.range.quiet quiet
  have same := quiet.same
  rw [same] at range valid ⊢
  exact safe_deliverValue valid range coherent.nested accepts

theorem steps_shorthandObject {shorthand : Shorthand} (coherent : st.Coherent)
    (spelled : isShorthand t = true) (ready : ObjectReady st.subject st.predicate st.stack) :
    Steps (shorthandObject t shorthand) deep st := by
  refine safe_bind (fun _ => grows_objectDone _ _) ?_
  apply safe_shorthandToken spelled
  intro hd st' quiet valid
  have range := coherent.range.quiet quiet
  have same := quiet.same
  rw [same] at range valid ⊢
  exact safe_objectDone valid range coherent.nested ready

theorem steps_onObject (coherent : st.Coherent) (state : st.state = .object) :
    Steps (onObject t) deep st := by
  have fits := coherent.fits
  rw [state] at fits
  have ready : ObjectReady st.subject st.predicate st.stack := fits
  unfold onObject
  split
  · exact steps_keepString coherent (Or.inl rfl) ready
  · exact steps_shorthandObject coherent rfl ready
  · exact steps_shorthandObject coherent rfl ready
  · exact steps_shorthandObject coherent rfl ready
  · exact steps_shorthandObject coherent rfl ready
  · exact steps_shorthandObject coherent rfl ready
  · exact steps_setBracket coherent ready
  · have range := coherent.range.push (f := Frame.collection none none .object)
      ⟨all_none, all_none⟩
    refine fun _ => ⟨{ range with }, ⟨ready, coherent.nested⟩, ?_⟩
    show StateFits _ st.state
    rw [state]
    trivial
  · exact steps_closeCollection coherent
  · apply steps_require12 coherent (grows_pushRt _)
    exact steps_pushRt coherent ready
  · apply steps_require12 coherent (grows_pushTt _)
    exact steps_pushTt coherent ready
  · have delivers : st.Delivers .object := ready
    apply steps_nodeOr coherent delivers (fun same => by cases same) (grows_err _)
    intro _
    exact steps_err coherent

/-! ## Literals -/

theorem Delivers.setState {ret : Ret} {s : S} (h : st.Delivers ret) :
    Delivers { st with state := s } ret := by
  cases ret <;> exact h

theorem grows_deliverLiteral (bytes : Bytes) : Grows (deliverLiteral bytes) :=
  grows_bind (grows_emitTerm _) fun _ => grows_bind grows_get fun _ => grows_deliver _ _ _

theorem steps_deliverLiteral {bytes : Bytes} (coherent : st.Coherent)
    (kind : st.litRet = .object ∨ st.litRet = .rtObject ∨ st.litRet = .ttObject)
    (delivers : st.Delivers st.litRet) : Steps (deliverLiteral bytes) deep st := by
  refine safe_bind (fun _ => grows_bind grows_get fun _ => grows_deliver _ _ _) ?_
  apply safe_emitTerm
  intro h st' quiet valid
  have range := coherent.range.quiet quiet
  have same := quiet.same
  rw [same] at range valid ⊢
  apply safe_get
  apply safe_deliver valid range coherent.nested delivers
  intro anno
  have ret : st.litRet = .annoReifier := anno
  rw [ret] at kind
  rcases kind with kind | kind | kind <;> cases kind

theorem steps_onAfterString (coherent : st.Coherent) (state : st.state = .afterString) :
    Steps (onAfterString t) deep st := by
  have fits := coherent.fits
  rw [state] at fits
  obtain ⟨kind, delivers⟩ := fits
  have literal : ∀ bytes, Steps (done (deliverLiteral bytes)) deep st :=
    fun bytes => steps_done (steps_deliverLiteral coherent kind delivers)
  apply safe_get
  split
  · exact literal _
  · apply steps_require12 coherent
    · exact grows_bind (grows_deliverLiteral _) fun _ => grows_pure _
    · exact literal _
  · exact literal _
  · exact literal _
  · exact literal _
  · exact steps_done (steps_setState coherent ⟨kind, delivers.setState⟩)
  · exact safe_bind (fun _ => grows_pure _) (safe_mono
      (steps_deliverLiteral coherent kind delivers) (fun _ _ coherent' => safe_pure coherent')
      fun _ e => e)

theorem safe_datatypeIri {Q : String → Parser → Prop} {E : Parser → Prop} (failed : E st)
    (h : ∀ iri, Q iri st) : safe (datatypeIri t) Q E st := by
  unfold datatypeIri
  split
  · apply safe_get
    cases st.ctx.resolveIri _ with
    | ok iri => exact safe_pure (h iri)
    | error message => exact safe_err failed
  · exact safe_pnameIri failed h
  · exact safe_err failed

theorem grows_liftErr {β : Type} (r : Except String β) : Grows (liftErr r) := by
  cases r with
  | ok a => exact grows_pure a
  | error message => exact grows_err message

theorem steps_onDatatype (coherent : st.Coherent) (state : st.state = .datatype) :
    Steps (onDatatype t) deep st := by
  have fits := coherent.fits
  rw [state] at fits
  obtain ⟨kind, delivers⟩ := fits
  refine safe_bind (fun _ => grows_bind grows_get fun _ => grows_bind (grows_liftErr _) fun _ =>
    grows_deliverLiteral _) ?_
  apply safe_datatypeIri (Or.inl coherent)
  intro iri
  apply safe_get
  apply safe_liftErr
  · intro bytes _
    exact steps_deliverLiteral coherent kind delivers
  · exact Or.inl coherent

/-! ## Annotations -/

/-- A reifier is delivered when the state handles the token. -/
def DeliversReifier (t : Token) (st : Parser) : Prop :=
  (st.state = .annoReifier ∧ t ≠ .lBracket ∧ ∃ node st', simpleNode t st = .ok node st') ∨
    (st.state = .bracket ∧ st.bracketRet = .annoReifier ∧ t = .rBracket)

theorem AnnotationFits.builds {st' : Parser} (fits : st.AnnotationFits) (quiet : Quiet st st') :
    st'.AnnotationFits := by
  rw [quiet.same]
  exact fits

theorem grows_takeReifier : Grows takeReifier := by
  apply grows_bind grows_get
  intro st
  split
  · exact grows_bind (grows_update fun _ => rfl) fun _ => grows_pure _
  · exact grows_bind grows_freshBnode fun _ => grows_bind (grows_reify _) fun _ => grows_pure _

/-- The reifier of an annotation block. -/
theorem safe_takeReifier (coherent : st.Coherent) (annotating : st.Annotating) :
    safe takeReifier
      (fun r st' => st'.Valid r ∧ st'.InRange ∧ Nested st'.subject st'.predicate st'.stack ∧
        st'.Annotating)
      (fun st' => st'.Coherent ∨ deep) st := by
  have range := coherent.range
  apply safe_get
  split
  · rename_i r taken
    apply safe_update
    exact safe_pure ⟨range.curReifier r taken, { range with curReifier := all_none },
      coherent.nested, annotating⟩
  · refine safe_bind (fun _ => grows_bind (grows_reify _) fun _ => grows_pure _) ?_
    apply safe_freshBnode
    intro r st₁ quiet valid
    have coherent₁ := coherent.builds quiet.builds
    have annotating₁ : st₁.Annotating := by
      rw [quiet.same]
      exact annotating
    refine safe_bind (fun _ => grows_pure _) ?_
    apply safe_reify valid coherent₁.range.last annotating₁.2.2.1 coherent₁.range.curTt
      (fun _ => Or.inl coherent₁)
    intro st₂ reified
    have range₂ := coherent₁.range.reified reified
    have valid₂ : st₂.Valid r := valid.grow reified.grown
    have same := reified.same
    rw [same] at range₂ valid₂ ⊢
    exact safe_pure ⟨valid₂, range₂, coherent₁.nested, annotating₁⟩

theorem steps_openAnno (coherent : st.Coherent) (annotating : st.Annotating) :
    Steps openAnno deep st := by
  refine safe_bind (fun _ => grows_update fun _ => rfl) ?_
  apply safe_mono (safe_takeReifier coherent annotating)
  · intro r st' taken
    obtain ⟨valid, range, nested, annotating'⟩ := taken
    have pushed := range.push (f := Frame.anno st'.subject st'.predicate st'.last st'.curTt)
      ⟨range.subject, range.predicate, range.last, range.curTt⟩
    exact fun _ => ⟨{ pushed with subject := all_some valid, predicate := all_none },
      ⟨annotating', nested⟩, rfl, trivial⟩
  · exact fun _ e => e

theorem steps_onAfterObject (coherent : st.Coherent) (state : st.state = .afterObject) :
    Steps (onAfterObject t) deep st := by
  have fits := coherent.fits
  rw [state] at fits
  have annotating : st.Annotating := fits
  obtain ⟨subject, predicate, _, top⟩ := annotating
  unfold onAfterObject
  split
  · exact steps_setState coherent (ObjectReady.of_polTop top subject predicate)
  · exact steps_setState coherent ⟨subject, top⟩
  · exact steps_endStatement coherent
  · exact steps_closeBnode coherent
  · exact steps_closeAnno coherent
  · apply safe_get
    split
    · exact steps_endGraphStatement coherent
    · exact steps_err coherent
  · apply steps_require12 coherent (grows_setState _)
    exact steps_setState coherent fits
  · apply steps_require12 coherent
    · exact grows_bind grows_takeReifier fun _ => grows_update fun _ => rfl
    · exact steps_openAnno coherent fits
  · exact steps_err coherent

/-- A fresh node delivered. -/
theorem steps_freshNode {ret : Ret} (coherent : st.Coherent) (delivers : st.Delivers ret)
    (fits : ret = .annoReifier → st.AnnotationFits) : Steps (anonNode ret) deep st := by
  refine safe_bind (fun _ => grows_deliver _ _ _) ?_
  apply safe_freshBnode
  intro b st' quiet valid
  have range := coherent.range.quiet quiet
  have same := quiet.same
  have fits' : ret = .annoReifier → st'.AnnotationFits := fun anno => (fits anno).builds quiet
  rw [same] at range valid fits' ⊢
  exact safe_deliver valid range coherent.nested delivers fits'

theorem steps_bareReifier (coherent : st.Coherent) (annotating : st.Annotating)
    (fits : st.AnnotationFits) : Steps bareReifier deep st := by
  have node : Steps (anonNode .annoReifier) deep st :=
    steps_freshNode coherent annotating fun _ => fits
  exact safe_bind (m := anonNode .annoReifier) (fun _ => grows_pure _)
    (safe_mono node (fun _ _ coherent' => safe_pure coherent') fun _ e => e)

theorem steps_onAnnoReifier (coherent : st.Coherent) (state : st.state = .annoReifier)
    (fits : DeliversReifier t st → st.AnnotationFits) : Steps (onAnnoReifier t) deep st := by
  have annotating := coherent.fits
  rw [state] at annotating
  have delivers : st.Delivers .annoReifier := annotating
  refine safe_bind ?_ ?_
  · intro found
    cases found with
    | some hd => exact grows_bind (grows_deliver _ _ _) fun _ => grows_pure _
    | none =>
        show Grows (if t = .lBracket then _ else _)
        split
        · exact grows_bind (grows_setBracket _) fun _ => grows_pure _
        · exact grows_bind grows_freshBnode fun _ => grows_bind (grows_deliver _ _ _) fun _ =>
            grows_pure _
  · apply safe_ran
    apply safe_simpleNode t (Or.inl coherent)
    · intro other ran
      show Steps (if t = .lBracket then _ else _) deep st
      split
      · exact steps_done (steps_setBracket coherent delivers)
      · rename_i ne
        exact steps_bareReifier coherent delivers (fits (Or.inl ⟨state, ne, _, _, ran⟩))
    · intro hd st' node quiet valid ran
      have ne : t ≠ .lBracket := by
        intro same
        rw [same] at node
        cases node
      have fits' := (fits (Or.inl ⟨state, ne, _, _, ran⟩)).builds quiet
      have range := coherent.range.quiet quiet
      have same := quiet.same
      rw [same] at range valid fits' ⊢
      exact steps_done (safe_deliver valid range coherent.nested delivers fun _ => fits')

/-! ## Property lists -/

theorem steps_openBnode (coherent : st.Coherent) (delivers : st.Delivers st.bracketRet)
    (list : st.bracketRet = .subject ∨ st.bracketRet = .object ∨ st.bracketRet = .statementNode) :
    Steps openBnode deep st := by
  refine safe_bind (fun _ => grows_bind (grows_update fun _ => rfl) fun _ => grows_pure _) ?_
  apply safe_freshBnode
  intro b st' quiet valid
  have range := coherent.range.quiet quiet
  have same := quiet.same
  rw [same] at range valid ⊢
  have accepts : Accepts st.subject st.predicate st.stack
      (if st.bracketRet = .object then .object else .subjectOptionalPol) := by
    rcases list with ret | ret | ret
    · rw [ret] at delivers ⊢
      exact delivers
    · rw [ret] at delivers ⊢
      exact delivers
    · rw [ret] at delivers ⊢
      exact Or.inl delivers
  have pushed := range.push (f := Frame.bnode b st.subject st.predicate
    (if st.bracketRet = .object then .object else .subjectOptionalPol))
    ⟨valid, range.subject, range.predicate⟩
  exact fun _ => ⟨{ pushed with subject := all_some valid, predicate := all_none },
    ⟨accepts, coherent.nested⟩, rfl, trivial⟩

theorem steps_onBracket (coherent : st.Coherent) (state : st.state = .bracket)
    (fits : DeliversReifier t st → st.AnnotationFits) : Steps (onBracket t) deep st := by
  have delivers := coherent.fits
  rw [state] at delivers
  apply safe_get
  split
  · rename_i close
    apply steps_done
    exact steps_freshNode coherent delivers fun ret => fits (Or.inr ⟨state, ret, close⟩)
  · split
    · rename_i list
      exact steps_openBnode coherent delivers list
    · exact steps_err coherent

/-! ## Quoted triples -/

theorem steps_onRtSubject (coherent : st.Coherent) (state : st.state = .rtSubject) :
    Steps (onRtSubject t) deep st := by
  have fits := coherent.fits
  rw [state] at fits
  have delivers : st.Delivers .rtSubject := fits
  apply steps_nodeOr coherent delivers (fun same => by cases same)
  · split
    · exact grows_setBracket _
    · exact grows_pushRt _
    · exact grows_err _
  · intro _
    split
    · exact steps_setBracket coherent delivers
    · exact steps_pushRt coherent fits
    · exact steps_err coherent

theorem safe_quotedVerb {Q : H → Parser → Prop} {E : Parser → Prop} {message : String}
    (failed : E st) (h : ∀ hd st', Quiet st st' → st'.Valid hd → Q hd st') :
    safe (quotedVerb t message) Q E st := by
  unfold quotedVerb
  split
  · exact safe_emitTerm _ h
  · exact safe_expectNode rfl failed h
  · exact safe_expectNode rfl failed h
  · exact safe_err failed

theorem steps_onRtPredicate (coherent : st.Coherent) (state : st.state = .rtPredicate) :
    Steps (onRtPredicate t) deep st := by
  have fits := coherent.fits
  rw [state] at fits
  refine safe_bind (fun _ => grows_updateRt _ _) ?_
  apply safe_quotedVerb (Or.inl coherent)
  intro p st' quiet valid
  have range := coherent.range.quiet quiet
  have same := quiet.same
  rw [same] at range valid ⊢
  apply safe_updateRt range coherent.nested fits
  · intro parts ret all
    exact ⟨all.1, all_some valid, all.2.2⟩
  · intro parts ret rest subject
    exact ⟨subject, rfl⟩

theorem steps_onRtObject (coherent : st.Coherent) (state : st.state = .rtObject) :
    Steps (onRtObject t) deep st := by
  have fits := coherent.fits
  rw [state] at fits
  have delivers : st.Delivers .rtObject := fits
  have accepts : Accepts st.subject st.predicate st.stack .rtObject := fits
  unfold onRtObject
  split
  · exact steps_keepString coherent (Or.inr (Or.inl rfl)) accepts
  · exact steps_deliverShorthand coherent rfl accepts
  · exact steps_deliverShorthand coherent rfl accepts
  · exact steps_deliverShorthand coherent rfl accepts
  · exact steps_deliverShorthand coherent rfl accepts
  · exact steps_deliverShorthand coherent rfl accepts
  · exact steps_setBracket coherent delivers
  · exact steps_pushRt coherent accepts
  · exact steps_pushTt coherent accepts
  · apply steps_nodeOr coherent delivers (fun same => by cases same) (grows_err _)
    intro _
    exact steps_err coherent

theorem grows_closeRt : Grows closeRt := by
  apply grows_bind grows_get
  intro st
  split
  · exact grows_bind (grows_update fun _ => rfl) fun _ => grows_bind (grows_expect _ _) fun _ =>
      grows_bind (grows_expect _ _) fun _ => grows_bind (grows_expect _ _) fun _ =>
        grows_bind (grows_buildTt _ _ _) fun _ => grows_bind (grows_reifierOr _) fun _ =>
          grows_bind (grows_wellKnown _) fun _ => grows_bind (grows_emit _ _ _ _) fun _ =>
            grows_deliver _ _ _
  · exact grows_crash _

theorem steps_closeRt (coherent : st.Coherent) (top : RtTop Parts.Full st.stack) :
    Steps closeRt st.TopTooDeep st :=
  safe_mono (safe_closeRt coherent.range coherent.nested top) (fun _ _ h => h) fun _ => Or.inr

theorem steps_closeTt (coherent : st.Coherent) (top : TtTop Parts.Full st.stack) :
    Steps closeTt st.TopTooDeep st :=
  safe_mono (safe_closeTt coherent.range coherent.nested top) (fun _ _ h => h) fun _ => Or.inr

/-- The token closes the quoted triple on top. -/
def Closes (t : Token) (st : Parser) : Prop :=
  ((st.state = .rtAfterObject ∨ st.state = .rtReifierNode ∨ st.state = .rtClose) ∧ t = .gtGt) ∨
    (st.state = .ttClose ∧ t = .rParenGtGt)

/-- The token closes a quoted triple whose triple term would nest too deeply. -/
def ClosesTooDeep (t : Token) (st : Parser) : Prop := Closes t st ∧ st.TopTooDeep

theorem Steps.deeper {α : Type} {m : M α} {deep' : Prop} (le : deep → deep')
    (h : Steps m deep st) : Steps m deep' st :=
  safe_mono h (fun _ _ coherent => coherent) fun _ e => e.imp id le

theorem steps_onRtAfterObject (coherent : st.Coherent) (state : st.state = .rtAfterObject) :
    Steps (onRtAfterObject t) (ClosesTooDeep t st) st := by
  have fits := coherent.fits
  rw [state] at fits
  unfold onRtAfterObject
  split
  · exact steps_setState coherent fits
  · exact (steps_closeRt coherent fits).deeper fun tooDeep =>
      ⟨Or.inl ⟨Or.inl state, rfl⟩, tooDeep⟩
  · exact steps_err coherent

theorem steps_onRtReifierNode (coherent : st.Coherent) (state : st.state = .rtReifierNode) :
    Steps (onRtReifierNode t) (ClosesTooDeep t st) st := by
  have fits := coherent.fits
  rw [state] at fits
  have delivers : st.Delivers .rtReifier := fits
  apply steps_nodeOr coherent delivers (fun same => by cases same)
  · split
    · exact grows_setBracket _
    · exact grows_closeRt
    · exact grows_err _
  · intro _
    split
    · exact steps_setBracket coherent delivers
    · exact (steps_closeRt coherent fits).deeper fun tooDeep =>
        ⟨Or.inl ⟨Or.inr (Or.inl state), rfl⟩, tooDeep⟩
    · exact steps_err coherent

theorem steps_onRtClose (coherent : st.Coherent) (state : st.state = .rtClose) :
    Steps (onRtClose t) (ClosesTooDeep t st) st := by
  have fits := coherent.fits
  rw [state] at fits
  unfold onRtClose
  split
  · exact (steps_closeRt coherent fits).deeper fun tooDeep =>
      ⟨Or.inl ⟨Or.inr (Or.inr state), rfl⟩, tooDeep⟩
  · exact steps_err coherent

theorem steps_onTtSubject (coherent : st.Coherent) (state : st.state = .ttSubject) :
    Steps (onTtSubject t) deep st := by
  have fits := coherent.fits
  rw [state] at fits
  have delivers : st.Delivers .ttSubject := fits
  apply steps_nodeOr coherent delivers (fun same => by cases same)
  · split
    · exact grows_setBracket _
    · exact grows_err _
  · intro _
    split
    · exact steps_setBracket coherent delivers
    · exact steps_err coherent

theorem steps_onTtPredicate (coherent : st.Coherent) (state : st.state = .ttPredicate) :
    Steps (onTtPredicate t) deep st := by
  have fits := coherent.fits
  rw [state] at fits
  refine safe_bind (fun _ => grows_updateTt _ _) ?_
  apply safe_quotedVerb (Or.inl coherent)
  intro p st' quiet valid
  have range := coherent.range.quiet quiet
  have same := quiet.same
  rw [same] at range valid ⊢
  apply safe_updateTt range coherent.nested fits
  · intro parts ret all
    exact ⟨all.1, all_some valid, all.2.2⟩
  · intro parts ret rest subject
    exact ⟨subject, rfl⟩

theorem steps_onTtObject (coherent : st.Coherent) (state : st.state = .ttObject) :
    Steps (onTtObject t) deep st := by
  have fits := coherent.fits
  rw [state] at fits
  have delivers : st.Delivers .ttObject := fits
  have accepts : Accepts st.subject st.predicate st.stack .ttObject := fits
  unfold onTtObject
  split
  · exact steps_keepString coherent (Or.inr (Or.inr rfl)) accepts
  · exact steps_deliverShorthand coherent rfl accepts
  · exact steps_deliverShorthand coherent rfl accepts
  · exact steps_deliverShorthand coherent rfl accepts
  · exact steps_deliverShorthand coherent rfl accepts
  · exact steps_deliverShorthand coherent rfl accepts
  · exact steps_setBracket coherent delivers
  · exact steps_pushTt coherent accepts
  · apply steps_nodeOr coherent delivers (fun same => by cases same) (grows_err _)
    intro _
    exact steps_err coherent

theorem steps_onTtClose (coherent : st.Coherent) (state : st.state = .ttClose) :
    Steps (onTtClose t) (ClosesTooDeep t st) st := by
  have fits := coherent.fits
  rw [state] at fits
  unfold onTtClose
  split
  · exact (steps_closeTt coherent fits).deeper fun tooDeep =>
      ⟨Or.inr ⟨state, rfl⟩, tooDeep⟩
  · exact steps_err coherent

/-! ## Every state -/

/-- Every token from a coherent parser. -/
theorem steps_handle (coherent : st.Coherent)
    (fits : DeliversReifier t st → st.AnnotationFits) :
    Steps (handle t) (ClosesTooDeep t st) st := by
  apply safe_get
  split
  · exact steps_done (steps_onStatement coherent ‹_›)
  · exact steps_done (steps_onPrefixName coherent ‹_›)
  · exact steps_done (steps_onPrefixIri coherent ‹_›)
  · exact steps_done (steps_onBaseIri coherent ‹_›)
  · exact steps_done (steps_onDirectiveDot coherent ‹_›)
  · exact steps_done (steps_onVersionString coherent ‹_›)
  · exact steps_onMaybeGraph coherent ‹_›
  · exact steps_done (steps_onGraphName coherent ‹_›)
  · exact steps_done (steps_onGraphOpen coherent ‹_›)
  · exact steps_done (steps_onVerb coherent (Or.inl ‹_›))
  · exact steps_done (steps_onVerb coherent (Or.inr (Or.inl ‹_›)))
  · exact steps_done (steps_onVerb coherent (Or.inr (Or.inr ‹_›)))
  · exact steps_done (steps_onObject coherent ‹_›)
  · exact steps_done (steps_onAfterObject coherent ‹_›)
  · exact steps_onAfterString coherent ‹_›
  · exact steps_done (steps_onDatatype coherent ‹_›)
  · exact steps_onAnnoReifier coherent ‹_› fits
  · exact steps_onBracket coherent ‹_› fits
  · exact steps_done (steps_onRtSubject coherent ‹_›)
  · exact steps_done (steps_onRtPredicate coherent ‹_›)
  · exact steps_done (steps_onRtObject coherent ‹_›)
  · exact steps_done (steps_onRtAfterObject coherent ‹_›)
  · exact steps_done (steps_onRtReifierNode coherent ‹_›)
  · exact steps_done (steps_onRtClose coherent ‹_›)
  · exact steps_done (steps_onTtSubject coherent ‹_›)
  · exact steps_done (steps_onTtPredicate coherent ‹_›)
  · exact steps_done (steps_onTtObject coherent ‹_›)
  · exact steps_done (steps_onTtClose coherent ‹_›)
  · rename_i state
    have never := coherent.fits
    rw [state] at never
    exact never.elim

end Parser

end Graphy.Turtle
