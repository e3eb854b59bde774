import Graphy.Turtle.Proofs.Emission

/-!
# What every state assumes

A parser is coherent when its frames nest well, the frame on top and the fields of the
statement are the ones its state works with, and every handle it keeps is in range.
Delivering a value to where it is expected keeps the parser coherent.
-/

namespace Graphy.Turtle

open Graphy.Comp

/-! ## Contexts -/

namespace Parts

def HasVerb (parts : Parts) : Prop := parts.s.isSome = true ∧ parts.p.isSome = true

def Full (parts : Parts) : Prop :=
  parts.s.isSome = true ∧ parts.p.isSome = true ∧ parts.o.isSome = true

end Parts

/-- Statements may stand here: at top level or directly in a graph block. -/
def StatementTop (stack : List Frame) : Prop := stack = [] ∨ stack = [.graph]

/-- Predicates and objects may stand here. -/
def PolTop : List Frame → Prop
  | .collection .. :: _ | .rt .. :: _ | .tt .. :: _ => False
  | _ => True

/-- An object may be delivered here. -/
def ObjectReady (subject predicate : Option H) : List Frame → Prop
  | .collection .. :: _ => True
  | .rt .. :: _ | .tt .. :: _ => False
  | _ => subject.isSome = true ∧ predicate.isSome = true

/-- The frame on top is a reified triple with these parts. -/
def RtTop (p : Parts → Prop) : List Frame → Prop
  | .rt parts _ :: _ => p parts
  | _ => False

/-- The frame on top is a triple term with these parts. -/
def TtTop (p : Parts → Prop) : List Frame → Prop
  | .tt parts _ :: _ => p parts
  | _ => False

/-- What delivering the value of a construct needs around it. -/
def Accepts (subject predicate : Option H) (stack : List Frame) : Ret → Prop
  | .subject | .subjectOptionalPol => StatementTop stack
  | .object => ObjectReady subject predicate stack
  | .rtSubject => RtTop (fun _ => True) stack
  | .rtObject => RtTop Parts.HasVerb stack
  | .ttSubject => TtTop (fun _ => True) stack
  | .ttObject => TtTop Parts.HasVerb stack
  | .statementNode | .graphName | .annoReifier | .rtReifier => False

/-- Every construct on the stack stands where its value is accepted; `subject` and
`predicate` are the ones in force inside the innermost. -/
def Nested (subject predicate : Option H) : List Frame → Prop
  | [] => True
  | .graph :: rest => rest = []
  | .collection _ _ ret :: rest =>
      Accepts subject predicate rest ret ∧ Nested subject predicate rest
  | .rt _ ret :: rest => Accepts subject predicate rest ret ∧ Nested subject predicate rest
  | .tt _ ret :: rest => Accepts subject predicate rest ret ∧ Nested subject predicate rest
  | .bnode _ s p ret :: rest => Accepts s p rest ret ∧ Nested s p rest
  | .anno s p last _ :: rest =>
      (s.isSome = true ∧ p.isSome = true ∧ last.isSome = true ∧ PolTop rest) ∧ Nested s p rest

theorem StatementTop.polTop {stack : List Frame} (h : StatementTop stack) : PolTop stack := by
  rcases h with rfl | rfl <;> trivial

/-- Where predicates stand the fields in force do not matter to the frames. -/
theorem Nested.of_polTop {stack : List Frame} (top : PolTop stack) {s p : Option H}
    (h : Nested s p stack) (s' p' : Option H) : Nested s' p' stack := by
  cases stack with
  | nil => trivial
  | cons f rest =>
      cases f with
      | collection => exact top.elim
      | rt => exact top.elim
      | tt => exact top.elim
      | _ => exact h

theorem StatementTop.nested {stack : List Frame} (h : StatementTop stack) (s p : Option H) :
    Nested s p stack := by
  rcases h with rfl | rfl <;> trivial

theorem ObjectReady.of_polTop {stack : List Frame} (top : PolTop stack) {s p : Option H}
    (hs : s.isSome = true) (hp : p.isSome = true) : ObjectReady s p stack := by
  cases stack with
  | nil => exact ⟨hs, hp⟩
  | cons f rest =>
      cases f with
      | collection => exact top.elim
      | rt => exact top.elim
      | tt => exact top.elim
      | _ => exact ⟨hs, hp⟩

/-! ## Ranges -/

/-- Every handle a frame keeps satisfies the condition. -/
def Frame.All (V : H → Prop) : Frame → Prop
  | .bnode b s p _ => V b ∧ (∀ h ∈ s, V h) ∧ ∀ h ∈ p, V h
  | .collection head tail _ => (∀ h ∈ head, V h) ∧ ∀ h ∈ tail, V h
  | .rt parts _ | .tt parts _ =>
      (∀ h ∈ parts.s, V h) ∧ (∀ h ∈ parts.p, V h) ∧ (∀ h ∈ parts.o, V h) ∧ ∀ h ∈ parts.reifier, V h
  | .anno s p last term =>
      (∀ h ∈ s, V h) ∧ (∀ h ∈ p, V h) ∧ (∀ x y z, last = some (x, y, z) → V x ∧ V y ∧ V z) ∧
        ∀ h ∈ term, V h
  | .graph => True

theorem Frame.All.mono {V W : H → Prop} (le : ∀ h, V h → W h) {f : Frame} (all : f.All V) :
    f.All W := by
  cases f with
  | bnode b s p ret =>
      exact ⟨le b all.1, fun h mem => le h (all.2.1 h mem), fun h mem => le h (all.2.2 h mem)⟩
  | collection head tail ret =>
      exact ⟨fun h mem => le h (all.1 h mem), fun h mem => le h (all.2 h mem)⟩
  | rt parts ret =>
      exact ⟨fun h mem => le h (all.1 h mem), fun h mem => le h (all.2.1 h mem),
        fun h mem => le h (all.2.2.1 h mem), fun h mem => le h (all.2.2.2 h mem)⟩
  | tt parts ret =>
      exact ⟨fun h mem => le h (all.1 h mem), fun h mem => le h (all.2.1 h mem),
        fun h mem => le h (all.2.2.1 h mem), fun h mem => le h (all.2.2.2 h mem)⟩
  | anno s p last tt =>
      refine ⟨fun h mem => le h (all.1 h mem), fun h mem => le h (all.2.1 h mem), ?_,
        fun h mem => le h (all.2.2.2 h mem)⟩
      intro x y z same
      obtain ⟨hx, hy, hz⟩ := all.2.2.1 x y z same
      exact ⟨le x hx, le y hy, le z hz⟩
  | graph => trivial

namespace Parser

/-- Every handle the parser keeps is a range of its arena. -/
structure InRange (st : Parser) : Prop where
  subject : ∀ h ∈ st.subject, st.Valid h
  predicate : ∀ h ∈ st.predicate, st.Valid h
  pendingNode : ∀ h ∈ st.pendingNode, st.Valid h
  last : ∀ s p o, st.last = some (s, p, o) → st.Valid s ∧ st.Valid p ∧ st.Valid o
  curTt : ∀ h ∈ st.curTt, st.Valid h
  curReifier : ∀ h ∈ st.curReifier, st.Valid h
  stack : ∀ f ∈ st.stack, f.All st.Valid

/-- Handles stay in range while the arena grows and the fields that keep them stay. -/
theorem InRange.builds {st st' : Parser} (range : st.InRange) (builds : Builds st st') :
    st'.InRange := by
  have le := builds.grown
  have mono : ∀ h, st.Valid h → st'.Valid h := fun h valid => valid.grow le
  have same := builds.same
  rw [same] at mono ⊢
  constructor
  · exact fun h mem => mono h (range.subject h mem)
  · exact fun h mem => mono h (range.predicate h mem)
  · exact fun h mem => mono h (range.pendingNode h mem)
  · intro s p o last
    obtain ⟨hs, hp, ho⟩ := range.last s p o last
    exact ⟨mono s hs, mono p hp, mono o ho⟩
  · exact fun h mem => mono h (range.curTt h mem)
  · exact fun h mem => mono h (range.curReifier h mem)
  · exact fun f mem => (range.stack f mem).mono mono

theorem InRange.quiet {st st' : Parser} (range : st.InRange) (quiet : Quiet st st') :
    st'.InRange := range.builds quiet.builds

theorem InRange.reified {st st' : Parser} (range : st.InRange) (reified : Reified st st') :
    st'.InRange := by
  have le := reified.grown
  have mono : ∀ h, st.Valid h → st'.Valid h := fun h valid => valid.grow le
  have tt := reified.tt
  have same := reified.same
  rw [same] at mono tt ⊢
  constructor
  · exact fun h mem => mono h (range.subject h mem)
  · exact fun h mem => mono h (range.predicate h mem)
  · exact fun h mem => mono h (range.pendingNode h mem)
  · intro s p o last
    obtain ⟨hs, hp, ho⟩ := range.last s p o last
    exact ⟨mono s hs, mono p hp, mono o ho⟩
  · exact tt
  · exact fun h mem => mono h (range.curReifier h mem)
  · exact fun f mem => (range.stack f mem).mono mono

/-! ## Coherence -/

/-- A triple that may be annotated was just asserted. -/
def Annotating (st : Parser) : Prop :=
  st.subject.isSome = true ∧ st.predicate.isSome = true ∧ st.last.isSome = true ∧ PolTop st.stack

/-- A value may be delivered to the target. -/
def Delivers (st : Parser) : Ret → Prop
  | .statementNode | .graphName => st.stack = []
  | .annoReifier => st.Annotating
  | .rtReifier => RtTop Parts.Full st.stack
  | ret => Accepts st.subject st.predicate st.stack ret

/-- What a state assumes of the stack and the fields. -/
def StateFits (st : Parser) : S → Prop
  | .statement => StatementTop st.stack
  | .prefixName _ | .prefixIri _ | .baseIri _ | .directiveDot | .versionString _ => st.stack = []
  | .maybeGraph => st.stack = [] ∧ st.pendingNode.isSome = true
  | .graphName | .graphOpen => st.stack = []
  | .verb | .afterSemi => st.subject.isSome = true ∧ PolTop st.stack
  | .verbOrDot => st.subject.isSome = true ∧ StatementTop st.stack
  | .object => ObjectReady st.subject st.predicate st.stack
  | .afterObject | .annoReifier => st.Annotating
  | .afterString | .datatype =>
      (st.litRet = .object ∨ st.litRet = .rtObject ∨ st.litRet = .ttObject) ∧ st.Delivers st.litRet
  | .bracket => st.Delivers st.bracketRet
  | .rtSubject => RtTop (fun _ => True) st.stack
  | .rtPredicate => RtTop (fun parts => parts.s.isSome = true) st.stack
  | .rtObject => RtTop Parts.HasVerb st.stack
  | .rtAfterObject | .rtReifierNode | .rtClose => RtTop Parts.Full st.stack
  | .ttSubject => TtTop (fun _ => True) st.stack
  | .ttPredicate => TtTop (fun parts => parts.s.isSome = true) st.stack
  | .ttObject => TtTop Parts.HasVerb st.stack
  | .ttClose => TtTop Parts.Full st.stack
  | .recover => False

/-- The parser is what its state assumes. -/
structure Coherent (st : Parser) : Prop where
  range : st.InRange
  nested : Nested st.subject st.predicate st.stack
  fits : st.StateFits st.state

theorem Accepts.delivers {st : Parser} {ret : Ret}
    (h : Accepts st.subject st.predicate st.stack ret) : st.Delivers ret := by
  cases ret <;> first | exact h | exact h.elim

theorem Coherent.builds {st st' : Parser} (coherent : st.Coherent) (builds : Builds st st') :
    st'.Coherent := by
  have range := coherent.range.builds builds
  have same := builds.same
  rw [same] at range ⊢
  refine ⟨range, coherent.nested, ?_⟩
  have fits := coherent.fits
  show StateFits _ st.state
  cases state : st.state <;> rw [state] at fits <;> exact fits

end Parser

end Graphy.Turtle
