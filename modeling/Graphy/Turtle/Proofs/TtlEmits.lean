import Graphy.Misc.Emits
import Graphy.Turtle.Driver

/-!
# The Turtle driver only pushes quads

Handling a token does not depend on the quads of the call so far: it pushes the same ones
behind them, whatever they are.
-/

namespace Graphy.Turtle.Parser

open Graphy.Comp

/-- The parser with other quads of the call so far. -/
def withQuads (st : Parser) (buf : QuadBuf) : Parser := { st with quads := buf }

/-- A piece of parsing that only pushes quads. -/
def Pushes {ε α : Type} (m : Comp ε Parser α) : Prop := Emits withQuads QuadBuf.push m

theorem updates {f : Parser → Parser}
    (apart : ∀ st buf, f (withQuads st buf) = withQuads (f st) buf) :
    Pushes (update f : M Unit) := Emits.update apart

/-! ## Terms -/

theorem err_pushes {α : Type} (message : String) : Pushes (err message : M α) :=
  Emits.throws (fun _ => rfl) fun _ _ => rfl

theorem liftErr_pushes {α : Type} (r : Except String α) : Pushes (liftErr r) := by
  cases r with
  | ok a => exact Emits.pure a
  | error message => exact err_pushes message

theorem require12_pushes (what : String) : Pushes (require12 what) := by
  refine Emits.get (fun _ _ => rfl) fun st => ?_
  split
  · exact Emits.pure ()
  · exact err_pushes _

theorem emitTerm_pushes (bytes : Bytes) : Pushes (emitTerm bytes) := by
  refine Emits.get (fun _ _ => rfl) fun st => ?_
  exact Emits.bind (updates fun _ _ => rfl) fun _ => Emits.pure _

theorem bytesOf_pushes (h : H) : Pushes (bytesOf h) :=
  Emits.get (fun _ _ => rfl) fun _ => Emits.expect _ _

theorem freshBnode_pushes : Pushes freshBnode := by
  refine Emits.get (fun _ _ => rfl) fun st => ?_
  exact Emits.bind (updates fun _ _ => rfl) fun _ => emitTerm_pushes _

theorem pnameIri_pushes (ns loc : String) : Pushes (pnameIri ns loc) := by
  refine Emits.get (fun _ _ => rfl) fun st => ?_
  split
  · exact err_pushes _
  · dsimp only
    split
    · exact Emits.pure _
    · split
      · exact Emits.pure _
      · exact err_pushes _

theorem simpleNode_pushes (t : Token) : Pushes (simpleNode t) := by
  unfold simpleNode
  split
  · refine Emits.get (fun _ _ => rfl) fun st => ?_
    refine Emits.bind (liftErr_pushes _) fun abs => ?_
    exact Emits.bind (emitTerm_pushes _) fun _ => Emits.pure _
  · refine Emits.bind (pnameIri_pushes _ _) fun iri => ?_
    exact Emits.bind (emitTerm_pushes _) fun _ => Emits.pure _
  · refine Emits.bind (Emits.get (fun _ _ => rfl) fun st => ?_) fun _ => Emits.pure _
    exact Emits.bind (updates fun _ _ => rfl) fun _ => emitTerm_pushes _
  · exact Emits.pure none

theorem shorthandToken_pushes (t : Token) : Pushes (shorthandToken t) := by
  unfold shorthandToken
  split
  all_goals first | exact emitTerm_pushes _ | exact Emits.crash _

/-- The one place that pushes. -/
theorem emit_pushes (s p o : H) (shorthand : Option Shorthand) :
    Pushes (emit s p o shorthand) := by
  refine Emits.bind (bytesOf_pushes s) fun s => ?_
  refine Emits.bind (bytesOf_pushes p) fun p => ?_
  refine Emits.bind (bytesOf_pushes o) fun o => ?_
  exact Emits.emit (fun st => ⟨s, p, o, st.graph, shorthand⟩) fun _ _ => rfl

/-! ## Triple terms -/

theorem buildTt_pushes (s p o : H) : Pushes (buildTt s p o) := by
  refine Emits.get (fun _ _ => rfl) fun st => ?_
  split
  · exact err_pushes _
  · refine Emits.bind (bytesOf_pushes s) fun sb => ?_
    refine Emits.bind (bytesOf_pushes p) fun pb => ?_
    refine Emits.bind (bytesOf_pushes o) fun ob => ?_
    refine Emits.bind (emitTerm_pushes _) fun h => ?_
    exact Emits.bind (updates fun _ _ => rfl) fun _ => Emits.pure h

theorem annotationTt_pushes : Pushes annotationTt := by
  refine Emits.get (fun _ _ => rfl) fun st => ?_
  split
  · exact Emits.pure _
  · split
    · exact err_pushes _
    · refine Emits.bind (buildTt_pushes _ _ _) fun h => ?_
      exact Emits.bind (updates fun _ _ => rfl) fun _ => Emits.pure h

theorem reify_pushes (r : H) : Pushes (reify r) := by
  refine Emits.bind annotationTt_pushes fun tt => ?_
  exact Emits.bind (emitTerm_pushes _) fun reifies => emit_pushes r reifies tt none

/-- An error that becomes a panic does not matter. -/
theorem reifyExpected_pushes (r : H) : Pushes (reifyExpected r) := by
  intro st
  obtain ⟨out, outcome, runs⟩ := reify_pushes r st
  cases outcome with
  | ok a st' =>
      refine ⟨out, .ok a st', fun buf => ?_⟩
      unfold reifyExpected
      rw [runs]
      rfl
  | err e st' =>
      refine ⟨out, .panic "annotation follows an asserted triple" st', fun buf => ?_⟩
      unfold reifyExpected
      rw [runs]
      rfl
  | panic message st' =>
      refine ⟨out, .panic message st', fun buf => ?_⟩
      unfold reifyExpected
      rw [runs]
      rfl

/-! ## Delivery -/

theorem linkTail_pushes (tail : Option H) (n : H) : Pushes (linkTail tail n) := by
  cases tail with
  | none => exact Emits.pure ()
  | some t => exact Emits.bind (emitTerm_pushes _) fun _ => emit_pushes _ _ _ _

theorem objectDone_pushes (h : H) (shorthand : Option Shorthand) :
    Pushes (objectDone h shorthand) := by
  refine Emits.get (fun _ _ => rfl) fun st => ?_
  split
  · refine Emits.bind freshBnode_pushes fun n => ?_
    refine Emits.bind (emitTerm_pushes _) fun first => ?_
    refine Emits.bind (linkTail_pushes _ n) fun _ => ?_
    exact Emits.bind (emit_pushes _ _ _ _) fun _ => updates fun _ _ => rfl
  · refine Emits.bind (Emits.expect _ _) fun s => ?_
    refine Emits.bind (Emits.expect _ _) fun p => ?_
    exact Emits.bind (emit_pushes _ _ _ _) fun _ => updates fun _ _ => rfl

theorem updateRt_pushes (f : Parts → Parts) (next : S) : Pushes (updateRt f next) := by
  refine Emits.get (fun _ _ => rfl) fun st => ?_
  split
  · exact updates fun _ _ => rfl
  · exact Emits.crash _

theorem updateTt_pushes (f : Parts → Parts) (next : S) : Pushes (updateTt f next) := by
  refine Emits.get (fun _ _ => rfl) fun st => ?_
  split
  · exact updates fun _ _ => rfl
  · exact Emits.crash _

theorem deliver_pushes (ret : Ret) (h : H) (shorthand : Option Shorthand) :
    Pushes (deliver ret h shorthand) := by
  unfold deliver
  split
  · exact updates fun _ _ => rfl
  · exact updates fun _ _ => rfl
  · exact updates fun _ _ => rfl
  · exact objectDone_pushes h shorthand
  · exact updateRt_pushes _ _
  · exact updateRt_pushes _ _
  · exact updateRt_pushes _ _
  · exact updateTt_pushes _ _
  · exact updateTt_pushes _ _
  · exact Emits.bind (bytesOf_pushes h) fun _ => updates fun _ _ => rfl
  · exact Emits.bind (reifyExpected_pushes h) fun _ => updates fun _ _ => rfl

/-! ## Composite constructs -/

theorem nestingCheck_pushes : Pushes nestingCheck := by
  refine Emits.get (fun _ _ => rfl) fun st => ?_
  split
  · exact err_pushes _
  · exact Emits.pure ()

theorem pushRt_pushes (ret : Ret) : Pushes (pushRt ret) :=
  Emits.bind nestingCheck_pushes fun _ => updates fun _ _ => rfl

theorem pushTt_pushes (ret : Ret) : Pushes (pushTt ret) :=
  Emits.bind nestingCheck_pushes fun _ => updates fun _ _ => rfl

theorem reifierOr_pushes (reifier : Option H) : Pushes (reifierOr reifier) := by
  cases reifier with
  | none => exact freshBnode_pushes
  | some r => exact Emits.pure r

theorem closeRt_pushes : Pushes closeRt := by
  refine Emits.get (fun _ _ => rfl) fun st => ?_
  split
  · refine Emits.bind (updates fun _ _ => rfl) fun _ => ?_
    refine Emits.bind (Emits.expect _ _) fun s => ?_
    refine Emits.bind (Emits.expect _ _) fun p => ?_
    refine Emits.bind (Emits.expect _ _) fun o => ?_
    refine Emits.bind (buildTt_pushes s p o) fun tt => ?_
    refine Emits.bind (reifierOr_pushes _) fun r => ?_
    refine Emits.bind (emitTerm_pushes _) fun reifies => ?_
    exact Emits.bind (emit_pushes _ _ _ _) fun _ => deliver_pushes _ _ _
  · exact Emits.crash _

theorem closeTt_pushes : Pushes closeTt := by
  refine Emits.get (fun _ _ => rfl) fun st => ?_
  split
  · refine Emits.bind (updates fun _ _ => rfl) fun _ => ?_
    refine Emits.bind (Emits.expect _ _) fun s => ?_
    refine Emits.bind (Emits.expect _ _) fun p => ?_
    refine Emits.bind (Emits.expect _ _) fun o => ?_
    exact Emits.bind (buildTt_pushes s p o) fun _ => deliver_pushes _ _ _
  · exact Emits.crash _

theorem collectionValue_pushes (head tail : Option H) : Pushes (collectionValue head tail) := by
  unfold collectionValue
  split
  · refine Emits.bind (emitTerm_pushes _) fun restIri => ?_
    refine Emits.bind (emitTerm_pushes _) fun nil => ?_
    exact Emits.bind (emit_pushes _ _ _ _) fun _ => Emits.pure _
  · exact emitTerm_pushes _

theorem closeCollection_pushes : Pushes closeCollection := by
  refine Emits.get (fun _ _ => rfl) fun st => ?_
  split
  · refine Emits.bind (updates fun _ _ => rfl) fun _ => ?_
    exact Emits.bind (collectionValue_pushes _ _) fun _ => deliver_pushes _ _ _
  · exact err_pushes _

theorem closeBnode_pushes : Pushes closeBnode := by
  refine Emits.get (fun _ _ => rfl) fun st => ?_
  split
  · exact Emits.bind (updates fun _ _ => rfl) fun _ => deliver_pushes _ _ _
  · exact err_pushes _

theorem openAnno_pushes : Pushes openAnno := by
  refine Emits.bind (Emits.get (fun _ _ => rfl) fun st => ?_) fun r => updates fun _ _ => rfl
  split
  · exact Emits.bind (updates fun _ _ => rfl) fun _ => Emits.pure _
  · refine Emits.bind freshBnode_pushes fun r => ?_
    exact Emits.bind (reify_pushes r) fun _ => Emits.pure r

theorem closeAnno_pushes : Pushes closeAnno := by
  refine Emits.get (fun _ _ => rfl) fun st => ?_
  split
  · exact updates fun _ _ => rfl
  · exact err_pushes _

theorem endStatement_pushes : Pushes endStatement := by
  refine Emits.get (fun _ _ => rfl) fun st => ?_
  split
  · exact updates fun _ _ => rfl
  · exact updates fun _ _ => rfl
  · exact err_pushes _

theorem closeGraph_pushes : Pushes closeGraph := by
  refine Emits.get (fun _ _ => rfl) fun st => ?_
  split
  · exact updates fun _ _ => rfl
  · exact err_pushes _

/-! ## States -/

theorem done_pushes {m : M Unit} (h : Pushes m) : Pushes (done m) :=
  Emits.bind h fun _ => Emits.pure false

theorem expectNode_pushes (t : Token) : Pushes (expectNode t) :=
  Emits.bind (simpleNode_pushes t) fun _ => Emits.expect _ _

theorem directive_pushes (s : S) : Pushes (directive s) := by
  refine Emits.get (fun _ _ => rfl) fun st => ?_
  split
  · exact err_pushes _
  · exact updates fun _ _ => rfl

theorem versionDirective_pushes (sparql : Bool) : Pushes (versionDirective sparql) := by
  refine Emits.get (fun _ _ => rfl) fun st => ?_
  split
  · exact err_pushes _
  · exact Emits.bind (require12_pushes _) fun _ => updates fun _ _ => rfl

theorem openStatement_pushes (h : H) : Pushes (openStatement h) := by
  refine updates fun st buf => ?_
  show (if st.trig && !st.inGraph then _ else _) = _
  split <;> rfl

/-- Either way, whatever has been pushed. -/
theorem choose_pushes {α : Type} {p : Parser → Prop} [DecidablePred p] {m m' : M α}
    (blind : ∀ st buf, p (withQuads st buf) ↔ p st) (first : Pushes m)
    (second : Pushes m') :
    Pushes (do
      let st ← get
      if p st then m else m') := by
  refine Emits.get (fun st buf => ?_) fun st => ?_
  · simp only [blind]
  · split
    · exact first
    · exact second

theorem onStatement_pushes (t : Token) : Pushes (onStatement t) := by
  unfold onStatement
  split
  · exact directive_pushes _
  · exact directive_pushes _
  · exact directive_pushes _
  · exact directive_pushes _
  · exact choose_pushes (fun _ _ => Iff.rfl) (updates fun _ _ => rfl) (err_pushes _)
  · exact choose_pushes (fun _ _ => Iff.rfl) (updates fun _ _ => rfl) (err_pushes _)
  · exact choose_pushes (fun _ _ => Iff.rfl) closeGraph_pushes (err_pushes _)
  · exact Emits.bind (expectNode_pushes _) openStatement_pushes
  · exact Emits.bind (expectNode_pushes _) openStatement_pushes
  · exact Emits.bind (expectNode_pushes _) openStatement_pushes
  · exact Emits.get (fun _ _ => rfl) fun st => updates fun _ _ => rfl
  · exact updates fun _ _ => rfl
  · exact Emits.bind (require12_pushes _) fun _ => pushRt_pushes _
  · exact versionDirective_pushes _
  · exact versionDirective_pushes _
  · exact err_pushes _

theorem onMaybeGraph_pushes (t : Token) : Pushes (onMaybeGraph t) := by
  unfold onMaybeGraph
  split
  · refine Emits.get (fun _ _ => rfl) fun st => ?_
    refine Emits.bind (Emits.expect _ _) fun h => ?_
    refine Emits.bind (bytesOf_pushes h) fun label => ?_
    exact Emits.bind (updates fun _ _ => rfl) fun _ => Emits.pure _
  · exact Emits.bind (updates fun _ _ => rfl) fun _ => Emits.pure _

theorem nodeOr_pushes (t : Token) (ret : Ret) {other : M Unit} (h : Pushes other) :
    Pushes (nodeOr t ret other) := by
  refine Emits.bind (simpleNode_pushes t) fun node => ?_
  cases node with
  | some node => exact deliver_pushes _ _ _
  | none => exact h

theorem onPrefixName_pushes (sparql : Bool) (t : Token) : Pushes (onPrefixName sparql t) := by
  unfold onPrefixName
  split
  · split
    · exact err_pushes _
    · exact updates fun _ _ => rfl
  · exact err_pushes _

theorem onPrefixIri_pushes (sparql : Bool) (t : Token) : Pushes (onPrefixIri sparql t) := by
  unfold onPrefixIri
  split
  · refine Emits.get (fun _ _ => rfl) fun st => ?_
    exact Emits.bind (liftErr_pushes _) fun abs => updates fun _ _ => rfl
  · exact err_pushes _

theorem onBaseIri_pushes (sparql : Bool) (t : Token) : Pushes (onBaseIri sparql t) := by
  unfold onBaseIri
  split
  · refine Emits.get (fun _ _ => rfl) fun st => ?_
    exact Emits.bind (liftErr_pushes _) fun ctx => updates fun _ _ => rfl
  · exact err_pushes _

theorem endGraphStatement_pushes : Pushes endGraphStatement :=
  Emits.bind endStatement_pushes fun _ => closeGraph_pushes

theorem onVerb_pushes (t : Token) : Pushes (onVerb t) := by
  unfold onVerb
  split
  · exact Emits.bind (emitTerm_pushes _) fun h => updates fun _ _ => rfl
  · exact Emits.bind (expectNode_pushes _) fun h => updates fun _ _ => rfl
  · exact Emits.bind (expectNode_pushes _) fun h => updates fun _ _ => rfl
  · exact choose_pushes (fun _ _ => Iff.rfl) (Emits.pure ()) (err_pushes _)
  · exact choose_pushes (fun _ _ => Iff.rfl) endStatement_pushes (err_pushes _)
  · exact choose_pushes (fun _ _ => Iff.rfl) closeBnode_pushes (err_pushes _)
  · exact choose_pushes (fun _ _ => Iff.rfl) closeAnno_pushes (err_pushes _)
  · exact choose_pushes (fun _ _ => Iff.rfl) endGraphStatement_pushes (err_pushes _)
  · exact err_pushes _

theorem shorthandObject_pushes (t : Token) (shorthand : Shorthand) :
    Pushes (shorthandObject t shorthand) :=
  Emits.bind (shorthandToken_pushes t) fun h => objectDone_pushes h _

theorem onObject_pushes (t : Token) : Pushes (onObject t) := by
  unfold onObject
  split
  · exact updates fun _ _ => rfl
  · exact shorthandObject_pushes _ _
  · exact shorthandObject_pushes _ _
  · exact shorthandObject_pushes _ _
  · exact shorthandObject_pushes _ _
  · exact shorthandObject_pushes _ _
  · exact updates fun _ _ => rfl
  · exact updates fun _ _ => rfl
  · exact closeCollection_pushes
  · exact Emits.bind (require12_pushes _) fun _ => pushRt_pushes _
  · exact Emits.bind (require12_pushes _) fun _ => pushTt_pushes _
  · exact nodeOr_pushes _ _ (err_pushes _)

theorem deliverLiteral_pushes (bytes : Bytes) : Pushes (deliverLiteral bytes) := by
  refine Emits.bind (emitTerm_pushes bytes) fun h => ?_
  exact Emits.get (fun _ _ => rfl) fun st => deliver_pushes _ _ _

theorem onAfterString_pushes (t : Token) : Pushes (onAfterString t) := by
  refine Emits.get (fun _ _ => rfl) fun st => ?_
  split
  · exact done_pushes (deliverLiteral_pushes _)
  · exact Emits.bind (require12_pushes _) fun _ => done_pushes (deliverLiteral_pushes _)
  · exact done_pushes (deliverLiteral_pushes _)
  · exact done_pushes (deliverLiteral_pushes _)
  · exact done_pushes (deliverLiteral_pushes _)
  · exact done_pushes (updates fun _ _ => rfl)
  · exact Emits.bind (deliverLiteral_pushes _) fun _ => Emits.pure true

theorem datatypeIri_pushes (t : Token) : Pushes (datatypeIri t) := by
  unfold datatypeIri
  split
  · exact Emits.get (fun _ _ => rfl) fun st => liftErr_pushes _
  · exact pnameIri_pushes _ _
  · exact err_pushes _

theorem onDatatype_pushes (t : Token) : Pushes (onDatatype t) := by
  refine Emits.bind (datatypeIri_pushes t) fun dt => ?_
  refine Emits.get (fun _ _ => rfl) fun st => ?_
  exact Emits.bind (liftErr_pushes _) deliverLiteral_pushes

theorem onAfterObject_pushes (t : Token) : Pushes (onAfterObject t) := by
  unfold onAfterObject
  split
  · exact updates fun _ _ => rfl
  · exact updates fun _ _ => rfl
  · exact endStatement_pushes
  · exact closeBnode_pushes
  · exact closeAnno_pushes
  · exact choose_pushes (fun _ _ => Iff.rfl) endGraphStatement_pushes (err_pushes _)
  · exact Emits.bind (require12_pushes _) fun _ => updates fun _ _ => rfl
  · exact Emits.bind (require12_pushes _) fun _ => openAnno_pushes
  · exact err_pushes _

theorem onAnnoReifier_pushes (t : Token) : Pushes (onAnnoReifier t) := by
  refine Emits.bind (simpleNode_pushes t) fun h => ?_
  cases h with
  | some h => exact done_pushes (deliver_pushes _ _ _)
  | none =>
      dsimp only
      split
      · exact done_pushes (updates fun _ _ => rfl)
      · refine Emits.bind freshBnode_pushes fun r => ?_
        exact Emits.bind (deliver_pushes _ _ _) fun _ => Emits.pure true

theorem onBracket_pushes (t : Token) : Pushes (onBracket t) := by
  refine Emits.get (fun _ _ => rfl) fun st => ?_
  split
  · exact done_pushes (Emits.bind freshBnode_pushes fun b => deliver_pushes _ _ _)
  · split
    · refine Emits.bind freshBnode_pushes fun b => ?_
      exact Emits.bind (updates fun _ _ => rfl) fun _ => Emits.pure true
    · exact err_pushes _

theorem quotedVerb_pushes (t : Token) (message : String) : Pushes (quotedVerb t message) := by
  unfold quotedVerb
  split
  · exact emitTerm_pushes _
  · exact expectNode_pushes _
  · exact expectNode_pushes _
  · exact err_pushes _

theorem deliverShorthand_pushes (t : Token) (ret : Ret) : Pushes (deliverShorthand t ret) :=
  Emits.bind (shorthandToken_pushes t) fun _ => deliver_pushes _ _ _

theorem onRtObject_pushes (t : Token) : Pushes (onRtObject t) := by
  unfold onRtObject
  split
  · exact updates fun _ _ => rfl
  · exact deliverShorthand_pushes _ _
  · exact deliverShorthand_pushes _ _
  · exact deliverShorthand_pushes _ _
  · exact deliverShorthand_pushes _ _
  · exact deliverShorthand_pushes _ _
  · exact updates fun _ _ => rfl
  · exact pushRt_pushes _
  · exact pushTt_pushes _
  · exact nodeOr_pushes _ _ (err_pushes _)

theorem onTtObject_pushes (t : Token) : Pushes (onTtObject t) := by
  unfold onTtObject
  split
  · exact updates fun _ _ => rfl
  · exact deliverShorthand_pushes _ _
  · exact deliverShorthand_pushes _ _
  · exact deliverShorthand_pushes _ _
  · exact deliverShorthand_pushes _ _
  · exact deliverShorthand_pushes _ _
  · exact updates fun _ _ => rfl
  · exact pushTt_pushes _
  · exact nodeOr_pushes _ _ (err_pushes _)

theorem handle_pushes (t : Token) : Pushes (handle t) := by
  refine Emits.get (fun _ _ => rfl) fun st => ?_
  cases st.state
  case statement => exact done_pushes (onStatement_pushes t)
  case prefixName => exact done_pushes (onPrefixName_pushes _ t)
  case prefixIri => exact done_pushes (onPrefixIri_pushes _ t)
  case baseIri => exact done_pushes (onBaseIri_pushes _ t)
  case directiveDot =>
    refine done_pushes ?_
    unfold onDirectiveDot
    split
    · exact updates fun _ _ => rfl
    · exact err_pushes _
  case versionString =>
    refine done_pushes ?_
    unfold onVersionString
    split
    · exact updates fun _ _ => rfl
    · exact err_pushes _
  case maybeGraph => exact onMaybeGraph_pushes t
  case graphName =>
    refine done_pushes (nodeOr_pushes t .graphName ?_)
    split
    · exact updates fun _ _ => rfl
    · exact err_pushes _
  case graphOpen =>
    refine done_pushes ?_
    unfold onGraphOpen
    split
    · exact updates fun _ _ => rfl
    · exact err_pushes _
  case verb => exact done_pushes (onVerb_pushes t)
  case verbOrDot => exact done_pushes (onVerb_pushes t)
  case afterSemi => exact done_pushes (onVerb_pushes t)
  case object => exact done_pushes (onObject_pushes t)
  case afterObject => exact done_pushes (onAfterObject_pushes t)
  case afterString => exact onAfterString_pushes t
  case datatype => exact done_pushes (onDatatype_pushes t)
  case annoReifier => exact onAnnoReifier_pushes t
  case bracket => exact onBracket_pushes t
  case rtSubject =>
    refine done_pushes (nodeOr_pushes t .rtSubject ?_)
    split
    · exact updates fun _ _ => rfl
    · exact pushRt_pushes _
    · exact err_pushes _
  case rtPredicate =>
    exact done_pushes (Emits.bind (quotedVerb_pushes t _) fun h => updateRt_pushes _ _)
  case rtObject => exact done_pushes (onRtObject_pushes t)
  case rtAfterObject =>
    refine done_pushes ?_
    unfold onRtAfterObject
    split
    · exact updates fun _ _ => rfl
    · exact closeRt_pushes
    · exact err_pushes _
  case rtReifierNode =>
    refine done_pushes (nodeOr_pushes t .rtReifier ?_)
    split
    · exact updates fun _ _ => rfl
    · exact closeRt_pushes
    · exact err_pushes _
  case rtClose =>
    refine done_pushes ?_
    unfold onRtClose
    split
    · exact closeRt_pushes
    · exact err_pushes _
  case ttSubject =>
    refine done_pushes (nodeOr_pushes t .ttSubject ?_)
    split
    · exact updates fun _ _ => rfl
    · exact err_pushes _
  case ttPredicate =>
    exact done_pushes (Emits.bind (quotedVerb_pushes t _) fun h => updateTt_pushes _ _)
  case ttObject => exact done_pushes (onTtObject_pushes t)
  case ttClose =>
    refine done_pushes ?_
    unfold onTtClose
    split
    · exact closeTt_pushes
    · exact err_pushes _
  case recover => exact Emits.crash _

theorem errAt_pushes {α : Type} (start : Position) (message : String) :
    Pushes (errAt start message : Comp ParseError Parser α) := by
  unfold errAt
  split
  · exact Emits.crash _
  · exact Emits.throws (fun _ => rfl) fun _ _ => rfl

/-- Neither does it matter for the place of an error. -/
theorem located_pushes {α : Type} {m : M α} (h : Pushes m) : Pushes (located m) := by
  intro st
  obtain ⟨out, outcome, runs⟩ := h st
  cases outcome with
  | ok a st' =>
      refine ⟨out, .ok a st', fun buf => ?_⟩
      unfold located
      rw [runs]
      rfl
  | err message st' =>
      have place := errAt_pushes (α := α) st.tokenStart message
      obtain ⟨out', outcome', runs'⟩ := place st'
      refine ⟨out ++ out', outcome', fun buf => ?_⟩
      unfold located
      rw [runs, List.foldl_append]
      exact runs' _
  | panic message st' =>
      refine ⟨out, .panic message st', fun buf => ?_⟩
      unfold located
      rw [runs]
      rfl

theorem dispatch_pushes (t : Token) : Pushes (dispatch t) := located_pushes (handle_pushes t)

/-- By induction on how often the token is handed on. -/
theorem step_pushes (t : Token) : Pushes (step t) := by
  intro st
  induction rounds : st.state.rounds using Nat.strongRecOn generalizing st with
  | ind n ih =>
      obtain ⟨out, outcome, runs⟩ := dispatch_pushes t st
      cases outcome with
      | err e st' => exact ⟨out, .err e st', fun buf => step_err (runs buf)⟩
      | panic message st' => exact ⟨out, .panic message st', fun buf => step_panic (runs buf)⟩
      | ok again st' =>
          cases again with
          | false => exact ⟨out, .ok () st', fun buf => step_ok (runs buf)⟩
          | true =>
              have less := dispatch_handsOn (runs .empty)
              obtain ⟨out', outcome', runs'⟩ := ih st'.state.rounds (rounds ▸ less) st' rfl
              refine ⟨out ++ out', outcome', fun buf => ?_⟩
              rw [step_ok (runs buf), List.foldl_append]
              exact runs' _

end Graphy.Turtle.Parser
