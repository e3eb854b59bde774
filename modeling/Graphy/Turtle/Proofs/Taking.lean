import Graphy.Turtle.Parser

/-!
# Tokens that the grammar takes

An error about a token is placed by its column, which is not known where a line ends inside
the token.  Only strings and IRIs can span lines, so what matters is where the grammar takes
them: there, and only there, handling one raises no error.
-/

namespace Graphy.Turtle.Parser

open Graphy.Comp

variable {ε α β : Type} {st : Parser}

/-! ## Computations without errors -/

/-- The computation does not end in an error, though it may panic. -/
def Unfailing (m : Comp ε Parser α) (st : Parser) : Prop :=
  match m st with
  | .err _ _ => False
  | _ => True

theorem unfailing_pure (a : α) : Unfailing (pure a : Comp ε Parser α) st := trivial

theorem unfailing_update (f : Parser → Parser) : Unfailing (update f : Comp ε Parser Unit) st :=
  trivial

theorem unfailing_crash (message : String) : Unfailing (crash message : Comp ε Parser α) st :=
  trivial

theorem unfailing_get {f : Parser → Comp ε Parser α} (h : Unfailing (f st) st) :
    Unfailing (get >>= f) st := h

theorem unfailing_expect (o : Option α) (message : String) :
    Unfailing (expect o message : Comp ε Parser α) st := by
  cases o with
  | none => exact unfailing_crash message
  | some a => exact unfailing_pure a

theorem unfailing_bind {m : Comp ε Parser β} {f : β → Comp ε Parser α} (first : Unfailing m st)
    (next : ∀ b st', m st = .ok b st' → Unfailing (f b) st') : Unfailing (m >>= f) st := by
  show match andThen m f st with
    | .err _ _ => False
    | _ => True
  unfold Unfailing at first
  unfold andThen
  cases ran : m st with
  | ok b st₁ => exact next b st₁ ran
  | err e' st₁ =>
      rw [ran] at first
      exact first
  | panic message st₁ => trivial

theorem unfailing_emitTerm (bytes : Bytes) : Unfailing (emitTerm bytes) st :=
  unfailing_get (unfailing_bind (unfailing_update _) fun _ _ _ => unfailing_pure _)

theorem unfailing_bytesOf (h : H) : Unfailing (bytesOf h) st :=
  unfailing_get (unfailing_expect _ _)

theorem unfailing_freshBnode : Unfailing freshBnode st :=
  unfailing_get (unfailing_bind (unfailing_update _) fun _ _ _ => unfailing_emitTerm _)

theorem unfailing_emit (s p o : H) (shorthand : Option Shorthand) :
    Unfailing (emit s p o shorthand) st :=
  unfailing_bind (unfailing_bytesOf s) fun _ _ _ => unfailing_bind (unfailing_bytesOf p)
    fun _ _ _ => unfailing_bind (unfailing_bytesOf o) fun _ _ _ => unfailing_update _

theorem unfailing_linkTail (tail : Option H) (n : H) : Unfailing (linkTail tail n) st := by
  cases tail with
  | none => exact unfailing_pure ()
  | some t =>
      exact unfailing_bind (unfailing_emitTerm _) fun _ _ _ => unfailing_emit _ _ _ _

theorem unfailing_objectDone (h : H) (shorthand : Option Shorthand) :
    Unfailing (objectDone h shorthand) st := by
  refine unfailing_get ?_
  split
  · refine unfailing_bind unfailing_freshBnode fun n _ _ => ?_
    refine unfailing_bind (unfailing_emitTerm _) fun first _ _ => ?_
    refine unfailing_bind (unfailing_linkTail _ _) fun _ _ _ => ?_
    exact unfailing_bind (unfailing_emit _ _ _ _) fun _ _ _ => unfailing_update _
  · refine unfailing_bind (unfailing_expect _ _) fun s _ _ => ?_
    refine unfailing_bind (unfailing_expect _ _) fun p _ _ => ?_
    exact unfailing_bind (unfailing_emit _ _ _ _) fun _ _ _ => unfailing_update _

theorem unfailing_updateRt (f : Parts → Parts) (next : S) : Unfailing (updateRt f next) st := by
  refine unfailing_get ?_
  split
  · exact unfailing_update _
  · exact unfailing_crash _

theorem unfailing_updateTt (f : Parts → Parts) (next : S) : Unfailing (updateTt f next) st := by
  refine unfailing_get ?_
  split
  · exact unfailing_update _
  · exact unfailing_crash _

/-- An error of a reifier is a panic. -/
theorem unfailing_reifyExpected (r : H) : Unfailing (reifyExpected r) st := by
  unfold Unfailing reifyExpected
  generalize reify r st = outcome
  cases outcome <;> trivial

/-- Delivering a term raises no error. -/
theorem unfailing_deliver (ret : Ret) (h : H) (shorthand : Option Shorthand) :
    Unfailing (deliver ret h shorthand) st := by
  cases ret with
  | subject | subjectOptionalPol | statementNode => exact unfailing_update _
  | object => exact unfailing_objectDone h shorthand
  | rtSubject | rtObject | rtReifier => exact unfailing_updateRt _ _
  | ttSubject | ttObject => exact unfailing_updateTt _ _
  | graphName =>
      exact unfailing_bind (unfailing_bytesOf h) fun _ _ _ => unfailing_update _
  | annoReifier =>
      exact unfailing_bind (unfailing_reifyExpected h) fun _ _ _ => unfailing_update _

theorem unfailing_deliverLiteral (bytes : Bytes) : Unfailing (deliverLiteral bytes) st :=
  unfailing_bind (unfailing_emitTerm bytes) fun _ _ _ =>
    unfailing_get (unfailing_deliver _ _ _)

theorem unfailing_done {m : M Unit} (h : Unfailing m st) : Unfailing (done m) st :=
  unfailing_bind h fun _ _ _ => unfailing_pure _

/-! ## Strings and IRIs -/

/-- A bracket that may hold predicates. -/
def OpensBnode (st : Parser) : Prop :=
  st.bracketRet = .subject ∨ st.bracketRet = .object ∨ st.bracketRet = .statementNode

/-- Where a string is taken: as an object or a version, or behind a construct that ends
before it. -/
def TakesString (long : Bool) (st : Parser) : Prop :=
  match st.state with
  | .object | .rtObject | .ttObject => True
  | .versionString _ => long = false
  | .maybeGraph | .afterString | .annoReifier => True
  | .bracket => st.OpensBnode
  | _ => False

/-- Where an IRI is taken: where a node, a verb, a datatype or a directive has one and it
resolves, or behind a construct that ends before it. -/
def TakesIri (text : String) (st : Parser) : Prop :=
  match st.state with
  | .statement | .graphName | .verb | .verbOrDot | .afterSemi | .object | .annoReifier
  | .rtSubject | .rtPredicate | .rtObject | .rtReifierNode | .ttSubject | .ttPredicate
  | .ttObject | .prefixIri _ => ∃ iri, st.ctx.resolveIri text = .ok iri
  | .baseIri _ => ∃ ctx, st.ctx.setBase text = .ok ctx
  | .datatype => ∃ iri bytes, st.ctx.resolveIri text = .ok iri ∧
      typedBytes st.pending iri = .ok bytes
  | .maybeGraph | .afterString => True
  | .bracket => st.OpensBnode
  | _ => False

/-- The token is a string or an IRI that the grammar takes where the parser stands. -/
def Takes : Token → Parser → Prop
  | .string _ long _, st => st.TakesString long
  | .iri text, st => st.TakesIri text
  | _, _ => False

theorem unfailing_simpleNode {text iri : String} (resolves : st.ctx.resolveIri text = .ok iri) :
    Unfailing (simpleNode (.iri text)) st := by
  refine unfailing_get ?_
  rw [resolves]
  refine unfailing_bind (unfailing_pure iri) fun _ _ _ => ?_
  exact unfailing_bind (unfailing_emitTerm _) fun _ _ _ => unfailing_pure _

theorem unfailing_expectNode {text iri : String} (resolves : st.ctx.resolveIri text = .ok iri) :
    Unfailing (expectNode (.iri text)) st :=
  unfailing_bind (unfailing_simpleNode resolves) fun _ _ _ => unfailing_expect _ _

theorem simpleNode_iri {text : String} {st' : Parser} {node : Option H}
    (ran : simpleNode (.iri text) st = .ok node st') : node.isSome := by
  obtain ⟨h, st₁, -, last⟩ : ∃ h st₁, True ∧ (pure (some h) : M (Option H)) st₁ = .ok node st' := by
    unfold simpleNode at ran
    change andThen (liftErr (st.ctx.resolveIri text)) _ st = _ at ran
    unfold andThen at ran
    cases resolved : st.ctx.resolveIri text with
    | error message =>
        rw [resolved] at ran
        cases ran
    | ok iri =>
        rw [resolved] at ran
        exact ⟨_, _, trivial, ran⟩
  cases last
  rfl

theorem unfailing_nodeOr {text iri : String} {ret : Ret} {other : M Unit}
    (resolves : st.ctx.resolveIri text = .ok iri) :
    Unfailing (nodeOr (.iri text) ret other) st := by
  refine unfailing_bind (unfailing_simpleNode resolves) fun node st' ran => ?_
  obtain ⟨h, rfl⟩ := Option.isSome_iff_exists.mp (simpleNode_iri ran)
  exact unfailing_deliver _ _ _

theorem unfailing_openBnode : Unfailing openBnode st :=
  unfailing_bind unfailing_freshBnode fun _ _ _ =>
    unfailing_bind (unfailing_update _) fun _ _ _ => unfailing_pure _

/-- A bracket that ends before the token. -/
theorem unfailing_onBracket {t : Token} (opens : st.OpensBnode) (other : t ≠ .rBracket) :
    Unfailing (onBracket t) st := by
  refine unfailing_get ?_
  unfold OpensBnode at opens
  rw [if_neg other, if_pos opens]
  exact unfailing_openBnode

theorem unfailing_quotedVerb {text iri message : String}
    (resolves : st.ctx.resolveIri text = .ok iri) :
    Unfailing (quotedVerb (.iri text) message) st := unfailing_expectNode resolves

theorem unfailing_handleString {content : String} {long single : Bool}
    (takes : st.TakesString long) : Unfailing (handle (.string content long single)) st := by
  refine unfailing_get ?_
  unfold TakesString at takes
  cases state : st.state with
  | object | rtObject | ttObject => exact unfailing_done (unfailing_update _)
  | versionString sparql =>
      rw [state] at takes
      simp only at takes
      subst takes
      exact unfailing_done (unfailing_update _)
  | maybeGraph => exact unfailing_bind (unfailing_update _) fun _ _ _ => unfailing_pure _
  | afterString =>
      exact unfailing_get (unfailing_bind (unfailing_deliverLiteral _) fun _ _ _ =>
        unfailing_pure _)
  | annoReifier =>
      refine unfailing_bind (unfailing_pure none) fun node _ ran => ?_
      cases ran
      exact unfailing_bind unfailing_freshBnode fun _ _ _ =>
        unfailing_bind (unfailing_deliver _ _ _) fun _ _ _ => unfailing_pure _
  | bracket =>
      rw [state] at takes
      exact unfailing_onBracket takes (by simp)
  | _ =>
      rw [state] at takes
      exact takes.elim

theorem unfailing_handleIri {text : String} (takes : st.TakesIri text) :
    Unfailing (handle (.iri text)) st := by
  refine unfailing_get ?_
  unfold TakesIri at takes
  cases state : st.state <;> rw [state] at takes
  case statement =>
    obtain ⟨iri, resolves⟩ := takes
    exact unfailing_done (unfailing_bind (unfailing_expectNode resolves) fun _ _ _ =>
      unfailing_update _)
  case verb | verbOrDot | afterSemi =>
    obtain ⟨iri, resolves⟩ := takes
    exact unfailing_done (unfailing_bind (unfailing_expectNode resolves) fun _ _ _ =>
      unfailing_update _)
  case graphName | object | rtSubject | rtObject | rtReifierNode | ttSubject | ttObject =>
    obtain ⟨iri, resolves⟩ := takes
    exact unfailing_done (unfailing_nodeOr resolves)
  case rtPredicate =>
    obtain ⟨iri, resolves⟩ := takes
    exact unfailing_done (unfailing_bind (unfailing_quotedVerb resolves) fun _ _ _ =>
      unfailing_updateRt _ _)
  case ttPredicate =>
    obtain ⟨iri, resolves⟩ := takes
    exact unfailing_done (unfailing_bind (unfailing_quotedVerb resolves) fun _ _ _ =>
      unfailing_updateTt _ _)
  case annoReifier =>
    obtain ⟨iri, resolves⟩ := takes
    refine unfailing_bind (unfailing_simpleNode resolves) fun node st' ran => ?_
    obtain ⟨h, rfl⟩ := Option.isSome_iff_exists.mp (simpleNode_iri ran)
    exact unfailing_done (unfailing_deliver _ _ _)
  case prefixIri sparql =>
    obtain ⟨iri, resolves⟩ := takes
    refine unfailing_done (unfailing_get ?_)
    rw [resolves]
    exact unfailing_bind (unfailing_pure iri) fun _ _ _ => unfailing_update _
  case baseIri sparql =>
    obtain ⟨ctx, sets⟩ := takes
    refine unfailing_done (unfailing_get ?_)
    rw [sets]
    exact unfailing_bind (unfailing_pure ctx) fun _ _ _ => unfailing_update _
  case datatype =>
    obtain ⟨iri, bytes, resolves, typed⟩ := takes
    refine unfailing_done (unfailing_bind ?_ fun dt st' ran => ?_)
    · refine unfailing_get ?_
      rw [resolves]
      exact unfailing_pure iri
    · have same : liftErr (st.ctx.resolveIri text) st = .ok dt st' := ran
      rw [resolves] at same
      cases same
      refine unfailing_get ?_
      rw [typed]
      exact unfailing_bind (unfailing_pure bytes) fun _ _ _ => unfailing_deliverLiteral _
  case maybeGraph => exact unfailing_bind (unfailing_update _) fun _ _ _ => unfailing_pure _
  case afterString =>
    exact unfailing_get (unfailing_bind (unfailing_deliverLiteral _) fun _ _ _ =>
      unfailing_pure _)
  case bracket => exact unfailing_onBracket takes (by simp)
  all_goals exact takes.elim

/-- A token that the grammar takes raises no error. -/
theorem unfailing_handle {t : Token} (takes : Takes t st) : Unfailing (handle t) st := by
  unfold Takes at takes
  split at takes
  · exact unfailing_handleString takes
  · exact unfailing_handleIri takes
  · exact takes.elim

end Graphy.Turtle.Parser
