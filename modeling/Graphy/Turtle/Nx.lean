import Graphy.Turtle.Lexer

/-!
# The N-Triples and N-Quads driver

The line formats have no prefixes, no collections and no shorthand.  Fed bytes are parsed
eagerly into a buffer of quads, which the caller drains before it feeds again.
-/

namespace Graphy.Turtle

/-! ## The driver -/

inductive NxState where
  /-- Statement start, the only state the input may end in. -/
  | subject
  | predicate
  | object
  /-- A string has been read; a language tag or a datatype may follow. -/
  | afterString
  | datatype
  /-- The object is done; a graph label or the dot follows. -/
  | afterObject
  | afterGraph
  | ttSubject
  | ttPredicate
  | ttClose
  /-- Discarding bytes through the next newline. -/
  | recover
deriving DecidableEq, Repr

structure NxDriver where
  quads : QuadBuf
  /-- Arena of the statement in flight. -/
  stmt : Arena
  ctx : TermCtx
  /-- Blank-node labels are taken from the text instead of numbered. -/
  contentLabels : Bool
  spec12 : Bool
  lenient : Bool
  quadsMode : Bool
  state : NxState
  s : Option H
  p : Option H
  o : Option H
  g : Option H
  pending : String
  /-- Subjects and predicates of the open triple terms, the innermost first. -/
  ttStack : List (Option H × Option H)
  errors : List ParseError
deriving DecidableEq, Repr

/-- A piece of driving. -/
abbrev Nx (α : Type) := Comp ParseError NxDriver α

namespace NxDriver

open Graphy.Comp

/-- A base is not used: the line formats require absolute IRIs. -/
def new (options : Options) (quadsMode contentLabels : Bool) : NxDriver where
  quads := .empty
  stmt := .empty
  ctx := ⟨none, [], [], 0, options.trusted, options.labelNs⟩
  contentLabels := contentLabels
  spec12 := options.spec12
  lenient := options.lenient
  quadsMode := quadsMode
  state := .subject
  s := none
  p := none
  o := none
  g := none
  pending := ""
  ttStack := []
  errors := []

def resetStatement (d : NxDriver) : NxDriver :=
  { d with
    state := .subject
    s := none
    p := none
    o := none
    g := none
    ttStack := []
    stmt := .empty }

/-- Note an error and go on behind the next newline. -/
def note (d : NxDriver) (e : ParseError) : NxDriver :=
  { d with errors := d.errors ++ [e], state := .recover }

def setState (state : NxState) : Nx Unit := update fun d => { d with state := state }

/-- Report an error about the token in flight. -/
def err {α : Type} (start : Position) (message : String) : Nx α := errAt start message

def liftErr {α : Type} (start : Position) : Except String α → Nx α
  | .ok a => pure a
  | .error message => err start message

/-! ### Terms -/

/-- Append a term to the arena. -/
def emitTerm (bytes : Bytes) : Nx H := do
  let d ← get
  let stmt := d.stmt.append bytes
  update fun d => { d with stmt := stmt }
  return stmt.handleFrom d.stmt.mark

/-- The bytes of a handle; slicing panics out of bounds. -/
def bytesOf (h : H) : Nx Bytes := do
  let d ← get
  expect (d.stmt.get h) "range out of bounds"

/-- The label taken from the text, behind the namespace. -/
def contentLabel (ns : Option Nat) (surface : String) : Bytes :=
  Concise.encodeBlank ((ns.elim "" fun ns => s!"f{ns}") ++ "s" ++ surface)

def emitBlank (surface : String) : Nx H := do
  let d ← get
  if d.contentLabels then emitTerm (contentLabel d.ctx.labelNs surface)
  else do
    update fun d => { d with ctx := (d.ctx.internalLabel surface).2 }
    emitTerm (blankOrdinal d.ctx.labelNs "s" (d.ctx.internalLabel surface).1)

def emitIri (start : Position) (text : String) : Nx H := do
  let d ← get
  let abs ← liftErr start (d.ctx.resolveIri text)
  emitTerm (Concise.encodeIri abs)

def emitTyped (start : Position) (text : String) : Nx H := do
  let d ← get
  let abs ← liftErr start (d.ctx.resolveIri text)
  let bytes ← liftErr start (typedBytes d.pending abs)
  emitTerm bytes

/-- Combine three emitted components into a triple term. -/
def emitTripleTerm (s p o : H) : Nx H := do
  let sb ← bytesOf s
  let pb ← bytesOf p
  let ob ← bytesOf o
  emitTerm (Concise.encodeTripleTerm sb pb ob)

/-- An IRI or a blank node; nothing for other tokens. -/
def nodeTerm (start : Position) : Token → Nx (Option H)
  | .iri text => do
      return some (← emitIri start text)
  | .blankLabel text => do
      return some (← emitBlank text)
  | _ => return none

/-- A node, or the error for other tokens. -/
def nodeOr (start : Position) (t : Token) (message : String) : Nx H := do
  match ← nodeTerm start t with
  | some h => return h
  | none => err start message

/-- Only an IRI may stand here. -/
def iriOr (start : Position) (t : Token) (message : String) : Nx H :=
  match t with
  | .iri text => emitIri start text
  | _ => err start message

/-! ### Statements -/

/-- Route a finished object: into the enclosing triple term, or as the statement's. -/
def completeObject (h : H) : Nx Unit :=
  update fun d =>
    { d with o := some h, state := if d.ttStack = [] then .afterObject else .ttClose }

def graphBytes : Option H → Nx (Option Bytes)
  | none => return none
  | some h => do
      return some (← bytesOf h)

def emitStatement : Nx Unit := do
  let d ← get
  let s ← expect d.s "subject set"
  let p ← expect d.p "predicate set"
  let o ← expect d.o "object set"
  let gb ← graphBytes d.g
  let sb ← bytesOf s
  let pb ← bytesOf p
  let ob ← bytesOf o
  update fun d => { d with quads := d.quads.pushQuadFrom sb pb ob gb none }.resetStatement

/-! ### Handlers -/

def onSubject (start : Position) (t : Token) : Nx Unit := do
  let h ← nodeOr start t "expected subject (IRI or blank node)"
  update fun d => { d with s := some h, state := .predicate }

def onPredicate (start : Position) (t : Token) : Nx Unit := do
  let h ← iriOr start t "expected predicate (IRI)"
  update fun d => { d with p := some h, state := .object }

def keepString (start : Position) (content : String) (long single : Bool) : Nx Unit :=
  if long || single then err start "only double-quoted single-line strings are allowed"
  else update fun d => { d with pending := content, state := .afterString }

def openTripleTerm (start : Position) : Nx Unit := do
  let d ← get
  if d.spec12 = false then err start "triple terms require RDF 1.2 mode"
  else if Concise.maxTripleTermDepth ≤ d.ttStack.length then
    err start "triple terms nested too deeply"
  else update fun d => { d with ttStack := (none, none) :: d.ttStack, state := .ttSubject }

def onObject (start : Position) (t : Token) : Nx Unit :=
  match t with
  | .string content long single => keepString start content long single
  | .ltLtParen => openTripleTerm start
  | _ => do
      let h ← nodeOr start t "expected object term"
      completeObject h

def emitLang (tag : String) (dir : Option Dir) : Nx Unit := do
  let d ← get
  let h ← emitTerm (langBytes d.pending tag dir)
  completeObject h

def onLangTag (start : Position) (tag : String) (dir : Option Dir) : Nx Unit := do
  let d ← get
  if dir.isSome && !d.spec12 then err start "directional language tags require RDF 1.2 mode"
  else emitLang tag dir

/-- A token after a string; a simple literal leaves the token to the state it completes. -/
def onAfterString (start : Position) (t : Token) : Nx Bool :=
  match t with
  | .langTag tag dir => do
      onLangTag start tag dir
      return false
  -- directives in Turtle, here the language tags they spell
  | .kwBaseAt => do
      emitLang "base" none
      return false
  | .kwPrefixAt => do
      emitLang "prefix" none
      return false
  | .kwVersionAt => do
      emitLang "version" none
      return false
  | .doubleCaret => do
      setState .datatype
      return false
  | _ => do
      let d ← get
      let h ← emitTerm (Concise.encodeSimple d.pending)
      completeObject h
      return true

def onDatatype (start : Position) (t : Token) : Nx Unit :=
  match t with
  | .iri text => do
      let h ← emitTyped start text
      completeObject h
  | _ => err start "expected datatype IRI after '^^'"

def onGraphLabel (start : Position) (t : Token) : Nx Unit := do
  let h ← nodeOr start t "expected graph label or '.'"
  update fun d => { d with g := some h, state := .afterGraph }

def onAfterObject (start : Position) (t : Token) : Nx Unit := do
  let d ← get
  if t = .dot then emitStatement
  else if d.quadsMode then onGraphLabel start t
  else err start "expected '.'"

def onAfterGraph (start : Position) (t : Token) : Nx Unit :=
  if t = .dot then emitStatement else err start "expected '.'"

/-- Change the innermost open triple term. -/
def updateTt (f : Option H × Option H → Option H × Option H) (state : NxState) : Nx Unit := do
  let d ← get
  match d.ttStack with
  | [] => crash "in triple term"
  | frame :: frames => update fun d => { d with ttStack := f frame :: frames, state := state }

def onTtSubject (start : Position) (t : Token) : Nx Unit := do
  let h ← nodeOr start t "expected triple-term subject"
  updateTt (fun frame => (some h, frame.2)) .ttPredicate

def onTtPredicate (start : Position) (t : Token) : Nx Unit := do
  let h ← iriOr start t "expected triple-term predicate (IRI)"
  updateTt (fun frame => (frame.1, some h)) .object

def closeTripleTerm : Nx Unit := do
  let d ← get
  match d.ttStack with
  | [] => crash "in triple term"
  | frame :: frames => do
      update fun d => { d with ttStack := frames }
      let s ← expect frame.1 "set"
      let p ← expect frame.2 "set"
      let o ← expect d.o "triple-term object set"
      update fun d => { d with o := none }
      let h ← emitTripleTerm s p o
      completeObject h

def onTtClose (start : Position) (t : Token) : Nx Unit :=
  match t with
  | .rParenGtGt => closeTripleTerm
  | _ => err start "expected ')>>'"

/-- Handle a token for good. -/
def handled (m : Nx Unit) : Nx Bool := do
  m
  return false

/-- One round of the step loop; whether the token has to be handled again. -/
def dispatch (start : Position) (t : Token) : Nx Bool := do
  let d ← get
  match d.state with
  | .subject => handled (onSubject start t)
  | .predicate => handled (onPredicate start t)
  | .object => handled (onObject start t)
  | .afterString => onAfterString start t
  | .datatype => handled (onDatatype start t)
  | .afterObject => handled (onAfterObject start t)
  | .afterGraph => handled (onAfterGraph start t)
  | .ttSubject => handled (onTtSubject start t)
  | .ttPredicate => handled (onTtPredicate start t)
  | .ttClose => handled (onTtClose start t)
  | .recover => crash "recovery handled in pump"

/-- Handle a token.  Only a string's end hands it on, to a state that does not. -/
def step (start : Position) (t : Token) : Nx Unit := do
  let again ← dispatch start t
  if again then do
    let _ ← dispatch start t
    return ()
  else return ()

end NxDriver

/-! ## Pumping -/

theorem Cursor.skipPast_lt {c c' : Cursor} (h : c.skipPast = (true, c')) :
    c'.rest.length < c.rest.length := by
  unfold skipPast at h
  split at h
  · rename_i i found
    cases h
    obtain ⟨lt, -⟩ := List.idxOf?_eq_some_iff.mp found
    simp only [accept, List.length_drop]
    omega
  · cases h

/-- Handle every token the bytes hold. -/
def NxDriver.pump (eof : Bool) (lx : Cursor) (d : NxDriver) :
    Outcome ParseError (Cursor × NxDriver) Unit :=
  if d.state = .recover then
    match _h : lx.skipPast with
    | (false, lx) => .ok () (lx, d)
    | (true, lx) => pump eof lx d.resetStatement
  else
    match _h : lx.next eof d.ctx.trusted with
    | (.needMore, lx) => .ok () (lx, d)
    | (.eof position, lx) =>
        if d.state = .subject then .ok () (lx, d)
        else
          let e : ParseError := ⟨"unexpected end of input mid-statement", position⟩
          if d.lenient then .ok () (lx, d.note e) else .err e (lx, d)
    | (.token position t, lx) =>
        match NxDriver.step position t d with
        | .ok _ d => pump eof lx d
        | .err e d => if d.lenient then pump eof lx (d.note e) else .err e (lx, d)
        | .panic message d => .panic message (lx, d)
    | (.error e, lx) => if d.lenient then pump eof lx (d.note e) else .err e (lx, d)
termination_by 2 * lx.rest.length + (if d.state = .recover then 0 else 1)
decreasing_by
  · rename_i recovering
    have lt := Cursor.skipPast_lt _h
    rw [if_pos recovering, if_neg (by simp [NxDriver.resetStatement])]
    omega
  · rename_i driving
    have lt := Cursor.next_token_lt _h
    rw [if_neg driving]
    split <;> omega
  · rename_i driving _
    have lt := Cursor.next_token_lt _h
    rw [if_neg driving]
    split <;> omega
  · rename_i driving _
    have le := Cursor.next_le _h
    rw [if_pos (by rfl), if_neg driving]
    omega

theorem NxDriver.pump_token {eof : Bool} {lx lx' : Cursor} {d : NxDriver} {position : Position}
    {t : Token} (driving : d.state ≠ .recover)
    (h : lx.next eof d.ctx.trusted = (.token position t, lx')) :
    NxDriver.pump eof lx d =
      match NxDriver.step position t d with
      | .ok _ d => pump eof lx' d
      | .err e d => if d.lenient then pump eof lx' (d.note e) else .err e (lx', d)
      | .panic message d => .panic message (lx', d) := by
  rw [pump, if_neg driving]
  split
  all_goals
    rename_i found
    rw [h] at found
    cases found
  rfl

/-- A parser of the line formats. -/
structure NxParser where
  lx : Cursor
  eof : Bool
  driver : NxDriver
deriving DecidableEq, Repr

namespace NxParser

open Graphy.Comp

def new (options : Options) (quadsMode contentLabels : Bool) : NxParser :=
  ⟨⟨[], ⟨0, 1, 1⟩⟩, false, .new options quadsMode contentLabels⟩

def pump : Comp ParseError NxParser Unit := fun p =>
  match NxDriver.pump p.eof p.lx p.driver with
  | .ok () (lx, d) => .ok () { p with lx := lx, driver := d }
  | .err e (lx, d) => .err e { p with lx := lx, driver := d }
  | .panic message (lx, d) => .panic message { p with lx := lx, driver := d }

/-- Drop the quads of the call before. -/
def clearQuads (p : NxParser) : NxParser :=
  { p with driver := { p.driver with quads := .empty } }

/-- Push a chunk and parse eagerly. -/
def feed (chunk : Bytes) : Comp ParseError NxParser Unit := do
  update fun p => { p.clearQuads with lx := p.lx.feed chunk }
  pump

/-- Signal the end of the input. -/
def finish : Comp ParseError NxParser Unit := do
  update fun p => { p.clearQuads with eof := true }
  pump

/-- The quads of the last call. -/
def drain : Comp ParseError NxParser (List QuadRec) := do
  let p ← get
  expect p.driver.quads.iter "range out of bounds"

/-- Feed chunks and finish; the quads of every call, in document order. -/
def readFrom : List Bytes → Comp ParseError NxParser (List QuadRec)
  | [] => do
      finish
      drain
  | chunk :: chunks => do
      feed chunk
      let quads ← drain
      let more ← readFrom chunks
      return quads ++ more

end NxParser

end Graphy.Turtle
