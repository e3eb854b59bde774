import Graphy.Misc.Outcome
import Graphy.Turtle.Quad

/-!
# The Turtle and TriG driver

Recursive descent as a pushdown state machine: a state, a stack of frames for the
constructs in flight and the fields of the statement.  A token is dispatched on the
state; a state may finish pending work and ask for the same token again.
-/

namespace Graphy.Turtle

inductive Token where
  | iri (text : String)
  | pname (ns loc : String)
  | blankLabel (text : String)
  | string (content : String) (long single : Bool)
  | langTag (tag : String) (dir : Option Dir)
  | integer (text : String)
  | decimal (text : String)
  | double (text : String)
  | kwA
  | kwTrue
  | kwFalse
  | kwPrefixAt
  | kwBaseAt
  | kwPrefixSparql
  | kwBaseSparql
  | kwGraph
  | kwVersionAt
  | kwVersionSparql
  | dot
  | semicolon
  | comma
  | lParen
  | rParen
  | lBracket
  | rBracket
  | lBrace
  | rBrace
  | doubleCaret
  | ltLt
  | gtGt
  | ltLtParen
  | rParenGtGt
  | annoOpen
  | annoClose
  | tilde
deriving DecidableEq, Repr

/-- Where a token stands in the input. -/
structure Position where
  offset : Nat
  line : Nat
  column : Nat
deriving DecidableEq, Repr

structure ParseError where
  message : String
  position : Position
deriving DecidableEq, Repr

/-- Report an error at a token that has been read.  The column counts from the start of the
line behind the token: where a line ends inside the token that subtraction overflows, and the
column is recorded as zero. -/
def errAt {σ α : Type} (start : Position) (message : String) : Comp ParseError σ α :=
  if start.column = 0 then Comp.crash "attempt to subtract with overflow"
  else Comp.fail ⟨message, start⟩

/-- Where a completed term value is delivered. -/
inductive Ret where
  | subject
  /-- Subject whose predicates are optional. -/
  | subjectOptionalPol
  /-- Statement start in TriG: graph label or subject. -/
  | statementNode
  | object
  | rtSubject
  | rtObject
  | rtReifier
  | ttSubject
  | ttObject
  | graphName
  | annoReifier
deriving DecidableEq, Repr

inductive S where
  | statement
  | prefixName (sparql : Bool)
  | prefixIri (sparql : Bool)
  | baseIri (sparql : Bool)
  | directiveDot
  | versionString (sparql : Bool)
  | maybeGraph
  | graphName
  | graphOpen
  | verb
  | verbOrDot
  | object
  | afterObject
  | afterSemi
  | afterString
  | datatype
  | annoReifier
  | bracket
  | rtSubject
  | rtPredicate
  | rtObject
  | rtAfterObject
  | rtReifierNode
  | rtClose
  | ttSubject
  | ttPredicate
  | ttObject
  | ttClose
  /-- Discarding input through the next dot. -/
  | recover
deriving DecidableEq, Repr

/-- What a reified triple or a triple term has so far. -/
structure Parts where
  s : Option H
  p : Option H
  o : Option H
  reifier : Option H
deriving DecidableEq, Repr

inductive Frame where
  /-- `[ pol ]` -/
  | bnode (b : H) (savedSubject savedPredicate : Option H) (ret : Ret)
  /-- `( items )` -/
  | collection (head tail : Option H) (ret : Ret)
  /-- `<< s p o ~r >>` -/
  | rt (parts : Parts) (ret : Ret)
  /-- `<<( s p o )>>` -/
  | tt (parts : Parts) (ret : Ret)
  /-- `{| pol |}` with the annotation context around it. -/
  | anno (savedSubject savedPredicate : Option H) (savedLast : Option (H × H × H))
      (savedTt : Option H)
  /-- TriG `{ … }` -/
  | graph
deriving DecidableEq, Repr

structure Options where
  base : Option String
  spec12 : Bool
  lenient : Bool
  labelNs : Option Nat
  trusted : Bool
deriving DecidableEq, Repr

structure Parser where
  /-- Where the token in flight starts. -/
  tokenStart : Position
  /-- The quads of the call in progress. -/
  quads : QuadBuf
  /-- Arena of the statement in flight. -/
  stmt : Arena
  ctx : TermCtx
  spec12 : Bool
  lenient : Bool
  trig : Bool
  state : S
  /-- The innermost construct first. -/
  stack : List Frame
  subject : Option H
  predicate : Option H
  graph : Option Bytes
  pendingNode : Option H
  pendingPrefix : String
  pending : String
  litRet : Ret
  bracketRet : Ret
  /-- Most recently asserted triple at this annotation level. -/
  last : Option (H × H × H)
  /-- Triple term of `last`. -/
  curTt : Option H
  curReifier : Option H
  /-- Nesting depth of the triple terms built this statement, the last one first. -/
  ttDepths : List (H × Nat)
  errors : List ParseError
deriving DecidableEq, Repr

/-- A piece of parsing.  Its errors are texts: `located` says where they are. -/
abbrev M (α : Type) := Comp String Parser α

namespace Parser

open Graphy.Comp

def new (options : Options) (trig : Bool) : Except ParseError Parser :=
  match TermCtx.new options.base options.trusted options.labelNs with
  | .error message => .error ⟨s!"invalid base IRI: {message}", ⟨0, 0, 0⟩⟩
  | .ok ctx => .ok {
      tokenStart := ⟨0, 1, 1⟩
      quads := .empty
      stmt := .empty
      ctx := ctx
      spec12 := options.spec12
      lenient := options.lenient
      trig := trig
      state := .statement
      stack := []
      subject := none
      predicate := none
      graph := none
      pendingNode := none
      pendingPrefix := ""
      pending := ""
      litRet := .object
      bracketRet := .object
      last := none
      curTt := none
      curReifier := none
      ttDepths := []
      errors := [] }

def resetStatement (st : Parser) : Parser :=
  { st with
    subject := none
    predicate := none
    pendingNode := none
    last := none
    curTt := none
    curReifier := none
    ttDepths := []
    stmt := .empty }

def inGraph (st : Parser) : Bool := st.stack.getLast? == some .graph

def setState (s : S) : M Unit := update fun st => { st with state := s }

def setBracket (ret : Ret) : M Unit := update fun st => { st with bracketRet := ret, state := .bracket }

/-- Report an error at the token in flight. -/
def err {α : Type} (message : String) : M α := Comp.fail message

def liftErr {α : Type} : Except String α → M α
  | .ok a => pure a
  | .error message => err message

def require12 (what : String) : M Unit := do
  let st ← get
  if st.spec12 then pure () else err s!"{what} requires RDF 1.2 mode"

/-! ## Terms -/

/-- Append a term to the arena. -/
def emitTerm (bytes : Bytes) : M H := do
  let st ← get
  let stmt := st.stmt.append bytes
  update fun st => { st with stmt := stmt }
  return stmt.handleFrom st.stmt.mark

/-- The bytes of a handle; slicing panics out of bounds. -/
def bytesOf (h : H) : M Bytes := do
  let st ← get
  expect (st.stmt.get h) "range out of bounds"

def wellKnown (iri : String) : M H := emitTerm (Concise.encodeIri iri)

def freshBnode : M H := do
  let st ← get
  update fun st => { st with ctx := st.ctx.freshLabel.2 }
  emitTerm (blankOrdinal st.ctx.labelNs "b" st.ctx.freshLabel.1)

def emitBlank (surface : String) : M H := do
  let st ← get
  update fun st => { st with ctx := (st.ctx.internalLabel surface).2 }
  emitTerm (blankOrdinal st.ctx.labelNs "s" (st.ctx.internalLabel surface).1)

def pnameIri (ns loc : String) : M String := do
  let st ← get
  match st.ctx.expandPrefix ns with
  | none => err s!"undeclared prefix {ns.quote}"
  | some expansion =>
      let iri := expansion ++ loc
      if fastAbsoluteLexed iri.toList then return iri
      else
        match Iri.validateIri iri with
        | .ok () => return iri
        | .error e => err s!"prefixed name expands to invalid IRI: {e.message}"

/-- IRIs, prefixed names and blank labels; nothing for other tokens. -/
def simpleNode : Token → M (Option H)
  | .iri text => do
      let st ← get
      let abs ← liftErr (st.ctx.resolveIri text)
      return some (← emitTerm (Concise.encodeIri abs))
  | .pname ns loc => do
      let iri ← pnameIri ns loc
      return some (← emitTerm (Concise.encodeIri iri))
  | .blankLabel text => do
      return some (← emitBlank text)
  | _ => return none

def shorthandBytes (lexical dt : String) : Bytes := Concise.encodeDatatype lexical dt

/-- The term of a number or boolean token. -/
def shorthandToken : Token → M H
  | .integer x => emitTerm (shorthandBytes x Vocab.xsdInteger)
  | .decimal x => emitTerm (shorthandBytes x Vocab.xsdDecimal)
  | .double x => emitTerm (shorthandBytes x Vocab.xsdDouble)
  | .kwTrue => emitTerm (shorthandBytes "true" Vocab.xsdBoolean)
  | .kwFalse => emitTerm (shorthandBytes "false" Vocab.xsdBoolean)
  | _ => crash "only shorthand tokens"

/-- Emit a quad in the current graph. -/
def emit (s p o : H) (shorthand : Option Shorthand) : M Unit := do
  let s ← bytesOf s
  let p ← bytesOf p
  let o ← bytesOf o
  update fun st => { st with quads := st.quads.pushQuadFrom s p o st.graph shorthand }

/-! ## Triple terms -/

def ttDepth (st : Parser) (h : H) : Nat := (st.ttDepths.lookup h).getD 0

/-- Depth of the triple term of a subject and an object. -/
def tripleDepth (st : Parser) (s o : H) : Nat := 1 + max (st.ttDepth s) (st.ttDepth o)

/-- Write the triple term of three handles and note its depth. -/
def writeTt (s p o : H) (depth : Nat) : M H := do
  let sb ← bytesOf s
  let pb ← bytesOf p
  let ob ← bytesOf o
  let h ← emitTerm (Concise.encodeTripleTerm sb pb ob)
  update fun st => { st with ttDepths := (h, depth) :: st.ttDepths }
  return h

/-- Build a triple term, unless it nests too deeply. -/
def buildTt (s p o : H) : M H := do
  let st ← get
  if Concise.maxTripleTermDepth < st.tripleDepth s o then err "triple terms nested too deeply"
  else writeTt s p o (st.tripleDepth s o)

/-- The triple term of the annotation target, built once. -/
def annotationTt : M H := do
  let st ← get
  match st.curTt with
  | some h => return h
  | none =>
      match st.last with
      | none => err "no preceding triple to annotate"
      | some (s, p, o) => do
          let h ← buildTt s p o
          update fun st => { st with curTt := some h }
          return h

/-- State that `r` reifies the annotation target. -/
def reify (r : H) : M Unit := do
  let tt ← annotationTt
  let reifies ← wellKnown Vocab.rdfReifies
  emit r reifies tt none

/-- `reify`, where an error is a panic. -/
def reifyExpected (r : H) : M Unit := fun st =>
  match reify r st with
  | .err _ st' => .panic "annotation follows an asserted triple" st'
  | outcome => outcome

/-! ## Delivery -/

/-- Link the last cell of a collection, when there is one, to the next. -/
def linkTail (tail : Option H) (n : H) : M Unit :=
  match tail with
  | some t => do
      let restIri ← wellKnown Vocab.rdfRest
      emit t restIri n none
  | none => pure ()

def objectDone (h : H) (shorthand : Option Shorthand) : M Unit := do
  let st ← get
  match st.stack with
  | .collection head tail ret :: rest => do
      let n ← freshBnode
      let first ← wellKnown Vocab.rdfFirst
      linkTail tail n
      emit n first h shorthand
      update fun st => { st with
        stack := .collection (some (head.getD n)) (some n) ret :: rest
        state := .object }
  | _ => do
      let s ← expect st.subject "subject set in object position"
      let p ← expect st.predicate "predicate set in object position"
      emit s p h shorthand
      update fun st => { st with
        last := some (s, p, h)
        curTt := none
        curReifier := none
        state := .afterObject }

/-- Change the parts of the reified triple on top. -/
def updateRt (f : Parts → Parts) (next : S) : M Unit := do
  let st ← get
  match st.stack with
  | .rt parts ret :: rest =>
      update fun st => { st with stack := .rt (f parts) ret :: rest, state := next }
  | _ => crash "Rt state without Rt frame"

/-- Change the parts of the triple term on top. -/
def updateTt (f : Parts → Parts) (next : S) : M Unit := do
  let st ← get
  match st.stack with
  | .tt parts ret :: rest =>
      update fun st => { st with stack := .tt (f parts) ret :: rest, state := next }
  | _ => crash "Tt state without Tt frame"

def deliver (ret : Ret) (h : H) (shorthand : Option Shorthand) : M Unit :=
  match ret with
  | .subject => update fun st => { st with subject := some h, state := .verb }
  | .subjectOptionalPol => update fun st => { st with subject := some h, state := .verbOrDot }
  | .statementNode => update fun st => { st with pendingNode := some h, state := .maybeGraph }
  | .object => objectDone h shorthand
  | .rtSubject => updateRt (fun parts => { parts with s := some h }) .rtPredicate
  | .rtObject => updateRt (fun parts => { parts with o := some h }) .rtAfterObject
  | .rtReifier => updateRt (fun parts => { parts with reifier := some h }) .rtClose
  | .ttSubject => updateTt (fun parts => { parts with s := some h }) .ttPredicate
  | .ttObject => updateTt (fun parts => { parts with o := some h }) .ttClose
  | .graphName => do
      let label ← bytesOf h
      update fun st => { st with graph := some label, state := .graphOpen }
  | .annoReifier => do
      reifyExpected h
      update fun st => { st with curReifier := some h, state := .afterObject }

/-! ## Composite constructs -/

def nestingCheck : M Unit := do
  let st ← get
  if 4 * Concise.maxTripleTermDepth ≤ st.stack.length then err "construct nested too deeply"
  else pure ()

def pushRt (ret : Ret) : M Unit := do
  nestingCheck
  update fun st => { st with stack := .rt ⟨none, none, none, none⟩ ret :: st.stack, state := .rtSubject }

def pushTt (ret : Ret) : M Unit := do
  nestingCheck
  update fun st => { st with stack := .tt ⟨none, none, none, none⟩ ret :: st.stack, state := .ttSubject }

/-- The reifier of a reified triple, or a fresh one. -/
def reifierOr (reifier : Option H) : M H :=
  match reifier with
  | some r => pure r
  | none => freshBnode

def closeRt : M Unit := do
  let st ← get
  match st.stack with
  | .rt parts ret :: rest => do
      update fun st => { st with stack := rest }
      let s ← expect parts.s "rt subject set"
      let p ← expect parts.p "rt predicate set"
      let o ← expect parts.o "rt object set"
      let tt ← buildTt s p o
      let r ← reifierOr parts.reifier
      let reifies ← wellKnown Vocab.rdfReifies
      emit r reifies tt none
      deliver ret r none
  | _ => crash "Rt close without Rt frame"

def closeTt : M Unit := do
  let st ← get
  match st.stack with
  | .tt parts ret :: rest => do
      update fun st => { st with stack := rest }
      let s ← expect parts.s "tt subject set"
      let p ← expect parts.p "tt predicate set"
      let o ← expect parts.o "tt object set"
      let h ← buildTt s p o
      deliver ret h none
  | _ => crash "Tt close without Tt frame"

/-- The head of a closed collection: its last cell links to nil. -/
def collectionValue (head tail : Option H) : M H :=
  match head, tail with
  | some h, some t => do
      let restIri ← wellKnown Vocab.rdfRest
      let nil ← wellKnown Vocab.rdfNil
      emit t restIri nil none
      pure h
  | _, _ => wellKnown Vocab.rdfNil

def closeCollection : M Unit := do
  let st ← get
  match st.stack with
  | .collection head tail ret :: rest => do
      update fun st => { st with stack := rest }
      let value ← collectionValue head tail
      deliver ret value none
  | _ => err "unexpected ')'"

def closeBnode : M Unit := do
  let st ← get
  match st.stack with
  | .bnode b savedSubject savedPredicate ret :: rest => do
      update fun st => { st with
        stack := rest
        subject := savedSubject
        predicate := savedPredicate }
      deliver ret b none
  | _ => err "unexpected ']'"

/-- The current reifier, taken, or a fresh one that is reified first. -/
def takeReifier : M H := do
  let st ← get
  match st.curReifier with
  | some r => do
      update fun st => { st with curReifier := none }
      pure r
  | none => do
      let r ← freshBnode
      reify r
      pure r

/-- Open an annotation block with the reifier as its subject. -/
def openAnno : M Unit := do
  let r ← takeReifier
  update fun st => { st with
    stack := .anno st.subject st.predicate st.last st.curTt :: st.stack
    subject := some r
    predicate := none
    state := .verb }

def closeAnno : M Unit := do
  let st ← get
  match st.stack with
  | .anno savedSubject savedPredicate savedLast savedTt :: rest =>
      update fun st => { st with
        stack := rest
        subject := savedSubject
        predicate := savedPredicate
        last := savedLast
        curTt := savedTt
        curReifier := none
        state := .afterObject }
  | _ => err "unexpected '|\x7d'"

def endStatement : M Unit := do
  let st ← get
  match st.stack with
  | [] | .graph :: _ => update fun st => { st.resetStatement with state := .statement }
  | _ => err "statement terminator inside an unclosed construct"

def closeGraph : M Unit := do
  let st ← get
  match st.stack with
  | .graph :: rest =>
      update fun st => { st with stack := rest, graph := none, state := .statement }
  | _ => err "unexpected '\x7d'"

/-! ## States

Each handles one token; `true` asks for the same token again. -/

/-- The token is used up. -/
def done (m : M Unit) : M Bool := do
  m
  return false

/-- Tokens that spell a node. -/
def isNode : Token → Bool
  | .iri _ | .pname .. | .blankLabel _ => true
  | _ => false

def expectNode (t : Token) : M H := do
  let h ← simpleNode t
  expect h "node token"

/-- Directives stand outside graph blocks. -/
def directive (s : S) : M Unit := do
  let st ← get
  if st.inGraph then err "directives are not allowed inside graph blocks" else setState s

def versionDirective (sparql : Bool) : M Unit := do
  let st ← get
  if st.inGraph then err "expected directive or subject"
  else do
    require12 "the version directive"
    setState (.versionString sparql)

/-- The node that opens a statement: in TriG it may be a graph label. -/
def openStatement (h : H) : M Unit :=
  update fun st =>
    if st.trig && !st.inGraph then { st with pendingNode := some h, state := .maybeGraph }
    else { st with subject := some h, state := .verb }

def onStatement (t : Token) : M Unit :=
  match t with
  | .kwPrefixAt => directive (.prefixName false)
  | .kwPrefixSparql => directive (.prefixName true)
  | .kwBaseAt => directive (.baseIri false)
  | .kwBaseSparql => directive (.baseIri true)
  | .kwGraph => do
      let st ← get
      if st.trig && !st.inGraph then setState .graphName else err "expected directive or subject"
  | .lBrace => do
      let st ← get
      if st.trig && !st.inGraph then
        update fun st => { st with stack := .graph :: st.stack, graph := none }
      else err "expected directive or subject"
  | .rBrace => do
      let st ← get
      if st.inGraph then closeGraph else err "expected directive or subject"
  | .iri _ | .pname .. | .blankLabel _ => do
      let h ← expectNode t
      openStatement h
  | .lBracket => do
      let st ← get
      setBracket (if st.trig && !st.inGraph then .statementNode else .subject)
  | .lParen =>
      update fun st =>
        { st with stack := .collection none none .subject :: st.stack, state := .object }
  | .ltLt => do
      require12 "reified triples"
      pushRt .subjectOptionalPol
  | .kwVersionAt => versionDirective false
  | .kwVersionSparql => versionDirective true
  | _ => err "expected directive or subject"

def onMaybeGraph (t : Token) : M Bool :=
  match t with
  | .lBrace => do
      let st ← get
      let h ← expect st.pendingNode "pending node set"
      let label ← bytesOf h
      update fun st =>
        { st.resetStatement with
          graph := some label
          stack := .graph :: st.stack
          state := .statement }
      return false
  | _ => do
      update fun st =>
        { st with subject := st.pendingNode, pendingNode := none, state := .verb }
      return true

/-- Deliver the node a token spells, or handle another token. -/
def nodeOr (t : Token) (ret : Ret) (other : M Unit) : M Unit := do
  let h ← simpleNode t
  match h with
  | some h => deliver ret h none
  | none => other

def onGraphName (t : Token) : M Unit :=
  nodeOr t .graphName <|
    match t with
    | .lBracket => setBracket .graphName
    | _ => err "expected graph label"

def onGraphOpen (t : Token) : M Unit :=
  match t with
  | .lBrace => update fun st => { st with stack := .graph :: st.stack, state := .statement }
  | _ => err "expected '\x7b' after graph label"

/-- Where a directive goes on: the SPARQL forms have no dot. -/
def afterDirective (sparql : Bool) : S := if sparql then .statement else .directiveDot

def onPrefixName (sparql : Bool) (t : Token) : M Unit :=
  match t with
  | .pname ns loc =>
      if loc ≠ "" then err "expected a prefix declaration like 'ex:'"
      else update fun st => { st with pendingPrefix := ns, state := .prefixIri sparql }
  | _ => err "expected prefix name"

def onPrefixIri (sparql : Bool) (t : Token) : M Unit :=
  match t with
  | .iri text => do
      let st ← get
      let abs ← liftErr (st.ctx.resolveIri text)
      update fun st =>
        { st with ctx := st.ctx.setPrefix st.pendingPrefix abs, state := afterDirective sparql }
  | _ => err "expected IRI in prefix declaration"

def onBaseIri (sparql : Bool) (t : Token) : M Unit :=
  match t with
  | .iri text => do
      let st ← get
      let ctx ← liftErr (st.ctx.setBase text)
      update fun st => { st with ctx := ctx, state := afterDirective sparql }
  | _ => err "expected IRI in base declaration"

def onDirectiveDot (t : Token) : M Unit :=
  match t with
  | .dot => setState .statement
  | _ => err "expected '.' after directive"

def onVersionString (sparql : Bool) (t : Token) : M Unit :=
  match t with
  | .string _ false _ => setState (afterDirective sparql)
  | _ => err "expected version string"

/-- End the statement and the graph block around it. -/
def endGraphStatement : M Unit := do
  endStatement
  closeGraph

/-- The states `verb`, `verbOrDot` and `afterSemi`. -/
def onVerb (t : Token) : M Unit :=
  match t with
  | .kwA => do
      let h ← wellKnown Vocab.rdfType
      update fun st => { st with predicate := some h, state := .object }
  | .iri _ | .pname .. => do
      let h ← expectNode t
      update fun st => { st with predicate := some h, state := .object }
  | .semicolon => do
      let st ← get
      if st.state = .afterSemi then pure () else err "expected verb"
  | .dot => do
      let st ← get
      if st.state = .verbOrDot ∨ st.state = .afterSemi then endStatement else err "expected verb"
  | .rBracket => do
      let st ← get
      if st.state = .afterSemi then closeBnode else err "expected verb"
  | .annoClose => do
      let st ← get
      if st.state = .afterSemi then closeAnno else err "expected verb"
  | .rBrace => do
      let st ← get
      if st.trig ∧ (st.state = .verbOrDot ∨ st.state = .afterSemi) then endGraphStatement
      else err "expected verb"
  | _ => err "expected verb"

/-- Keep a string until its tag or datatype is known. -/
def keepString (content : String) (ret : Ret) : M Unit :=
  update fun st => { st with pending := content, litRet := ret, state := .afterString }

/-- The object a number or boolean token spells. -/
def shorthandObject (t : Token) (shorthand : Shorthand) : M Unit := do
  let h ← shorthandToken t
  objectDone h (some shorthand)

def onObject (t : Token) : M Unit :=
  match t with
  | .string content _ _ => keepString content .object
  | .integer _ => shorthandObject t .integer
  | .decimal _ => shorthandObject t .decimal
  | .double _ => shorthandObject t .double
  | .kwTrue | .kwFalse => shorthandObject t .boolean
  | .lBracket => setBracket .object
  | .lParen => update fun st => { st with stack := .collection none none .object :: st.stack }
  | .rParen => closeCollection
  | .ltLt => do
      require12 "reified triples"
      pushRt .object
  | .ltLtParen => do
      require12 "triple terms"
      pushTt .object
  | _ => nodeOr t .object (err "expected object term")

/-- Deliver the literal in flight. -/
def deliverLiteral (bytes : Bytes) : M Unit := do
  let h ← emitTerm bytes
  let st ← get
  deliver st.litRet h none

def onAfterString (t : Token) : M Bool := do
  let st ← get
  match t with
  | .langTag tag none => done (deliverLiteral (langBytes st.pending tag none))
  | .langTag tag (some dir) => do
      require12 "directional language tags"
      done (deliverLiteral (langBytes st.pending tag (some dir)))
  -- after a string a directive keyword is a language tag
  | .kwBaseAt => done (deliverLiteral (langBytes st.pending "base" none))
  | .kwPrefixAt => done (deliverLiteral (langBytes st.pending "prefix" none))
  | .kwVersionAt => done (deliverLiteral (langBytes st.pending "version" none))
  | .doubleCaret => done (setState .datatype)
  | _ => do
      deliverLiteral (Concise.encodeSimple st.pending)
      return true

/-- The datatype IRI a token spells. -/
def datatypeIri (t : Token) : M String :=
  match t with
  | .iri text => do
      let st ← get
      liftErr (st.ctx.resolveIri text)
  | .pname ns loc => pnameIri ns loc
  | _ => err "expected datatype IRI after '^^'"

def onDatatype (t : Token) : M Unit := do
  let dt ← datatypeIri t
  let st ← get
  let bytes ← liftErr (typedBytes st.pending dt)
  deliverLiteral bytes

def onAfterObject (t : Token) : M Unit :=
  match t with
  | .comma => setState .object
  | .semicolon => setState .afterSemi
  | .dot => endStatement
  | .rBracket => closeBnode
  | .annoClose => closeAnno
  | .rBrace => do
      let st ← get
      if st.trig then endGraphStatement else err "expected ',', ';', '.', or annotation"
  | .tilde => do
      require12 "reifiers"
      setState .annoReifier
  | .annoOpen => do
      require12 "annotation blocks"
      openAnno
  | _ => err "expected ',', ';', '.', or annotation"

/-- A bare tilde: a fresh reifier. -/
def bareReifier : M Bool := do
  let r ← freshBnode
  deliver .annoReifier r none
  return true

def onAnnoReifier (t : Token) : M Bool := do
  let h ← simpleNode t
  match h with
  | some h => done (deliver .annoReifier h none)
  | none => if t = .lBracket then done (setBracket .annoReifier) else bareReifier

/-- Open a property list. -/
def openBnode : M Bool := do
  let b ← freshBnode
  update fun st => { st with
    stack := .bnode b st.subject st.predicate
      (if st.bracketRet = .object then .object else .subjectOptionalPol) :: st.stack
    subject := some b
    predicate := none
    state := .verb }
  return true

/-- A node without properties. -/
def anonNode (ret : Ret) : M Unit := do
  let b ← freshBnode
  deliver ret b none

def onBracket (t : Token) : M Bool := do
  let st ← get
  if t = .rBracket then done (anonNode st.bracketRet)
  else if st.bracketRet = .subject ∨ st.bracketRet = .object ∨ st.bracketRet = .statementNode then
    openBnode
  else err "expected ']'"

def onRtSubject (t : Token) : M Unit :=
  nodeOr t .rtSubject <|
    match t with
    | .lBracket => setBracket .rtSubject
    | .ltLt => pushRt .rtSubject
    | _ => err "expected reified-triple subject"

/-- The verb of a quoted triple. -/
def quotedVerb (t : Token) (message : String) : M H :=
  match t with
  | .kwA => wellKnown Vocab.rdfType
  | .iri _ | .pname .. => expectNode t
  | _ => err message

def onRtPredicate (t : Token) : M Unit := do
  let h ← quotedVerb t "expected reified-triple predicate"
  updateRt (fun parts => { parts with p := some h }) .rtObject

/-- Deliver the number or boolean a token spells. -/
def deliverShorthand (t : Token) (ret : Ret) : M Unit := do
  let h ← shorthandToken t
  deliver ret h none

def onRtObject (t : Token) : M Unit :=
  match t with
  | .string content _ _ => keepString content .rtObject
  | .integer _ | .decimal _ | .double _ | .kwTrue | .kwFalse => deliverShorthand t .rtObject
  | .lBracket => setBracket .rtObject
  | .ltLt => pushRt .rtObject
  | .ltLtParen => pushTt .rtObject
  | _ => nodeOr t .rtObject (err "expected reified-triple object")

def onRtAfterObject (t : Token) : M Unit :=
  match t with
  | .tilde => setState .rtReifierNode
  | .gtGt => closeRt
  | _ => err "expected '~' or '>>'"

def onRtReifierNode (t : Token) : M Unit :=
  nodeOr t .rtReifier <|
    match t with
    | .lBracket => setBracket .rtReifier
    -- a bare tilde: the reifier is made at the close
    | .gtGt => closeRt
    | _ => err "expected reifier or '>>'"

def onRtClose (t : Token) : M Unit :=
  match t with
  | .gtGt => closeRt
  | _ => err "expected '>>'"

def onTtSubject (t : Token) : M Unit :=
  nodeOr t .ttSubject <|
    match t with
    | .lBracket => setBracket .ttSubject
    | _ => err "expected triple-term subject"

def onTtPredicate (t : Token) : M Unit := do
  let h ← quotedVerb t "expected triple-term predicate"
  updateTt (fun parts => { parts with p := some h }) .ttObject

def onTtObject (t : Token) : M Unit :=
  match t with
  | .string content _ _ => keepString content .ttObject
  | .integer _ | .decimal _ | .double _ | .kwTrue | .kwFalse => deliverShorthand t .ttObject
  | .lBracket => setBracket .ttObject
  | .ltLtParen => pushTt .ttObject
  | _ => nodeOr t .ttObject (err "expected triple-term object")

def onTtClose (t : Token) : M Unit :=
  match t with
  | .rParenGtGt => closeTt
  | _ => err "expected ')>>'"

/-- Handle a token in the parser's state. -/
def handle (t : Token) : M Bool := do
  let st ← get
  match st.state with
  | .statement => done (onStatement t)
  | .prefixName sparql => done (onPrefixName sparql t)
  | .prefixIri sparql => done (onPrefixIri sparql t)
  | .baseIri sparql => done (onBaseIri sparql t)
  | .directiveDot => done (onDirectiveDot t)
  | .versionString sparql => done (onVersionString sparql t)
  | .maybeGraph => onMaybeGraph t
  | .graphName => done (onGraphName t)
  | .graphOpen => done (onGraphOpen t)
  | .verb | .verbOrDot | .afterSemi => done (onVerb t)
  | .object => done (onObject t)
  | .afterObject => done (onAfterObject t)
  | .afterString => onAfterString t
  | .datatype => done (onDatatype t)
  | .annoReifier => onAnnoReifier t
  | .bracket => onBracket t
  | .rtSubject => done (onRtSubject t)
  | .rtPredicate => done (onRtPredicate t)
  | .rtObject => done (onRtObject t)
  | .rtAfterObject => done (onRtAfterObject t)
  | .rtReifierNode => done (onRtReifierNode t)
  | .rtClose => done (onRtClose t)
  | .ttSubject => done (onTtSubject t)
  | .ttPredicate => done (onTtPredicate t)
  | .ttObject => done (onTtObject t)
  | .ttClose => done (onTtClose t)
  | .recover => crash "recovery handled in pump"

/-- Place an error at the token in flight (`err_at`), whose column has to be known. -/
def located {α : Type} (m : M α) : Comp ParseError Parser α := fun st =>
  match m st with
  | .ok a st' => .ok a st'
  | .err message st' => errAt st.tokenStart message st'
  | .panic message st' => .panic message st'

/-- One round of the step loop. -/
def dispatch (t : Token) : Comp ParseError Parser Bool := located (handle t)

end Parser

/-! ## Pumping -/

/-- What the lexer gives next. -/
inductive Lexed where
  /-- It needs more input. -/
  | needMore
  | token (position : Position) (t : Token)
  | eof (position : Position)
  | error (e : ParseError)
deriving DecidableEq, Repr

/-- The lexer's answers: to skipping through the next dot, and to the next token. -/
structure Lexer where
  skipToStatementEnd : Bool
  next : Lexed
deriving DecidableEq, Repr

/-- A parser between two rounds, with the token that still has to be handled. -/
structure Conf where
  st : Parser
  tok : Option Token
deriving DecidableEq, Repr

/-- How a round ends. -/
inductive Round where
  | running (c : Conf)
  /-- `feed` or `finish` returns to its caller. -/
  | returned (result : Except ParseError Unit) (c : Conf)
  | panicked (message : String) (st : Parser)

namespace Conf

/-- `feed` and `finish` drop the quads of the call before. -/
def call (c : Conf) : Conf := { c with st := { c.st with quads := .empty } }

/-- Note the error and recover, or return it. -/
def fail (e : ParseError) (st : Parser) : Round :=
  if st.lenient then
    .running ⟨{ st with errors := st.errors ++ [e], state := .recover }, none⟩
  else .returned (.error e) ⟨st, none⟩

/-- One round of pumping. -/
def next (c : Conf) (lx : Lexer) : Round :=
  match c.tok with
  | some t =>
      match Parser.dispatch t c.st with
      | .ok again st => .running ⟨st, if again then some t else none⟩
      | .err e st => fail e st
      | .panic message st => .panicked message st
  | none =>
      if c.st.state = .recover then
        if lx.skipToStatementEnd then
          .running ⟨{ c.st.resetStatement with stack := [], graph := none, state := .statement },
            none⟩
        else .returned (.ok ()) c
      else
        match lx.next with
        | .needMore => .returned (.ok ()) c
        | .eof position =>
            if c.st.state ≠ .statement ∨ c.st.stack ≠ [] then
              fail ⟨"unexpected end of input", position⟩ c.st
            else .returned (.ok ()) c
        | .token position t => .running ⟨{ c.st with tokenStart := position }, some t⟩
        | .error e => fail e c.st

end Conf

end Graphy.Turtle
