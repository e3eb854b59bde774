import Graphy.Turtle.Proofs.Objects
import Graphy.Turtle.Proofs.Quads
import Graphy.Turtle.Proofs.Taking
import Graphy.Turtle.Proofs.TtlEmits

/-!
# Runs of the driver

A run starts from a new parser and goes through rounds of pumping, whatever the lexer
answers and however the input is split into calls.  In a run that keeps to what the
handles and the annotations can hold, and raises no error about a token that spans lines,
every configuration is what its state assumes, no round panics, the quads of the call can be
read back and every construct beyond a depth limit is reported.
-/

namespace Graphy.Turtle

open Graphy.Comp

namespace Parser

variable {st : Parser} {t : Token}

/-! ## Depth limits -/

/-- The token opens a quoted triple. -/
def OpensQuoted (t : Token) (st : Parser) : Prop :=
  (t = .ltLt ∧ (st.state = .statement ∨ st.state = .object ∨ st.state = .rtSubject ∨
    st.state = .rtObject)) ∨
    (t = .ltLtParen ∧ (st.state = .object ∨ st.state = .rtObject ∨ st.state = .ttObject))

/-- The token opens an annotation block that needs a reifier. -/
def OpensBlock (t : Token) (st : Parser) : Prop :=
  t = .annoOpen ∧ st.state = .afterObject ∧ st.curReifier = none

/-- Handling the token makes a construct beyond a depth limit. -/
def ExceedsDepth (t : Token) (st : Parser) : Prop :=
  (OpensQuoted t st ∧ 4 * Concise.maxTripleTermDepth ≤ st.stack.length) ∨ ClosesTooDeep t st ∨
    ((OpensBlock t st ∨ DeliversReifier t st) ∧ ¬ st.AnnotationFits)

/-- The computation ends in an error. -/
def Errs {ε α : Type} (m : Comp ε Parser α) (st : Parser) : Prop := ∃ e st', m st = .err e st'

theorem errs_err {α : Type} (message : String) : Errs (err message : M α) st := ⟨_, _, rfl⟩

theorem errs_first {α β : Type} {m : M β} {f : β → M α} (h : Errs m st) : Errs (m >>= f) st := by
  obtain ⟨e, st', ran⟩ := h
  refine ⟨e, st', ?_⟩
  show andThen m f st = _
  unfold andThen
  rw [ran]

theorem errs_second {α β : Type} {m : M β} {f : β → M α} {b : β} {st' : Parser}
    (ran : m st = .ok b st') (h : Errs (f b) st') : Errs (m >>= f) st := by
  obtain ⟨e, st'', ran'⟩ := h
  exact ⟨e, st'', (bind_ok ran).trans ran'⟩

theorem errs_get {α : Type} {f : Parser → M α} (h : Errs (f st) st) : Errs (get >>= f) st := h

theorem errs_update {α : Type} {g : Parser → Parser} {f : Unit → M α} (h : Errs (f ()) (g st)) :
    Errs (update g >>= f) st := h

theorem errs_expect {α β : Type} {a : β} {message : String} {f : β → M α} (h : Errs (f a) st) :
    Errs (expect (some a) message >>= f) st := h

theorem errs_require12 {α : Type} {what : String} {f : Unit → M α} (h : Errs (f ()) st) :
    Errs (require12 what >>= f) st := by
  by_cases on : st.spec12 = true
  · have ran : require12 what st = .ok () st := by
      show (if st.spec12 then _ else _ : M Unit) st = _
      rw [if_pos on]
      rfl
    exact errs_second ran h
  · apply errs_first
    apply errs_get
    rw [if_neg on]
    exact errs_err _

theorem errs_nestingCheck {α : Type} {f : Unit → M α}
    (full : 4 * Concise.maxTripleTermDepth ≤ st.stack.length) :
    Errs (nestingCheck >>= f) st := by
  apply errs_first
  apply errs_get
  rw [if_pos full]
  exact errs_err _

theorem errs_opensQuoted (opens : OpensQuoted t st)
    (full : 4 * Concise.maxTripleTermDepth ≤ st.stack.length) : Errs (handle t) st := by
  have rt : ∀ ret, Errs (pushRt ret) st := fun _ => errs_nestingCheck full
  have tt : ∀ ret, Errs (pushTt ret) st := fun _ => errs_nestingCheck full
  unfold handle
  rcases opens with ⟨rfl, state⟩ | ⟨rfl, state⟩
  · rcases state with state | state | state | state
    · apply errs_get
      rw [state]
      exact errs_first (errs_require12 (rt _))
    · apply errs_get
      rw [state]
      exact errs_first (errs_require12 (rt _))
    · apply errs_get
      rw [state]
      exact errs_first (rt _)
    · apply errs_get
      rw [state]
      exact errs_first (rt _)
  · rcases state with state | state | state
    · apply errs_get
      rw [state]
      exact errs_first (errs_require12 (tt _))
    · apply errs_get
      rw [state]
      exact errs_first (tt _)
    · apply errs_get
      rw [state]
      exact errs_first (tt _)

theorem errs_buildTt {s p o : H} (deep : Concise.maxTripleTermDepth < st.tripleDepth s o) :
    Errs (buildTt s p o) st := by
  apply errs_get
  rw [if_pos deep]
  exact errs_err _

theorem errs_closeRt (top : RtTop Parts.Full st.stack) (deep : st.TopTooDeep) :
    Errs closeRt st := by
  unfold TopTooDeep at deep
  cases stack : st.stack with
  | nil =>
      rw [stack] at top
      exact top.elim
  | cons frame rest =>
      rw [stack] at top deep
      cases frame with
      | rt parts ret =>
          obtain ⟨s, o, foundS, foundO, deep⟩ := deep
          obtain ⟨p, foundP⟩ := Option.isSome_iff_exists.mp top.2.1
          unfold closeRt
          apply errs_get
          simp only [stack, foundS, foundP, foundO]
          apply errs_update
          apply errs_expect
          apply errs_expect
          apply errs_expect
          exact errs_first (errs_buildTt deep)
      | _ => exact top.elim

theorem errs_closeTt (top : TtTop Parts.Full st.stack) (deep : st.TopTooDeep) :
    Errs closeTt st := by
  unfold TopTooDeep at deep
  cases stack : st.stack with
  | nil =>
      rw [stack] at top
      exact top.elim
  | cons frame rest =>
      rw [stack] at top deep
      cases frame with
      | tt parts ret =>
          obtain ⟨s, o, foundS, foundO, deep⟩ := deep
          obtain ⟨p, foundP⟩ := Option.isSome_iff_exists.mp top.2.1
          unfold closeTt
          apply errs_get
          simp only [stack, foundS, foundP, foundO]
          apply errs_update
          apply errs_expect
          apply errs_expect
          apply errs_expect
          exact errs_first (errs_buildTt deep)
      | _ => exact top.elim

theorem errs_closesTooDeep (coherent : st.Coherent) (deep : ClosesTooDeep t st) :
    Errs (handle t) st := by
  obtain ⟨closes, deep⟩ := deep
  have fits := coherent.fits
  unfold handle
  apply errs_get
  rcases closes with ⟨state, rfl⟩ | ⟨state, rfl⟩
  · rcases state with state | state | state
    · rw [state] at fits ⊢
      exact errs_first (errs_closeRt fits deep)
    · rw [state] at fits ⊢
      exact errs_first (errs_closeRt fits deep)
    · rw [state] at fits ⊢
      exact errs_first (errs_closeRt fits deep)
  · rw [state] at fits ⊢
    exact errs_first (errs_closeTt fits deep)

/-- Reifying a triple beyond the limit is an error. -/
theorem errs_reify {r : H} (annotating : st.Annotating) (deep : ¬ st.AnnotationFits) :
    Errs (reify r) st := by
  obtain ⟨⟨s, p, o⟩, last⟩ := Option.isSome_iff_exists.mp annotating.2.2.1
  have unknown : st.curTt = none := by
    by_contra known
    exact deep (Or.inl (Option.isSome_iff_ne_none.mpr known))
  have beyond : Concise.maxTripleTermDepth < st.tripleDepth s o := by
    by_contra within
    apply deep
    refine Or.inr fun s' p' o' same => ?_
    rw [last] at same
    cases same
    omega
  apply errs_first
  unfold annotationTt
  apply errs_get
  simp only [unknown, last]
  exact errs_first (errs_buildTt beyond)

theorem errs_opensBlock (coherent : st.Coherent) (opens : OpensBlock t st)
    (deep : ¬ st.AnnotationFits) : Errs (handle t) st := by
  obtain ⟨rfl, state, taken⟩ := opens
  have annotating := coherent.fits
  unfold handle
  apply errs_get
  rw [state] at annotating ⊢
  apply errs_first
  apply errs_require12
  apply errs_first
  unfold takeReifier
  apply errs_get
  simp only [taken]
  apply errs_second rfl
  apply errs_first
  exact errs_reify annotating deep

end Parser

end Graphy.Turtle

namespace Graphy.Turtle.Conf

open Graphy.Comp Turtle.Parser

/-! ## Runs -/

/-- The token in flight closes a quoted triple that nests too deeply. -/
def TooDeep (c : Conf) : Prop := ∃ t, c.tok = some t ∧ ClosesTooDeep t c.st

/-- The configurations that the driver goes through, whatever the lexer answers.  A call that
returned is followed by the next.  Rounds run where `ok` holds, and the caller goes on only
after rounds with `again`. -/
inductive Run (ok again : Conf → Prop) (options : Options) (trig : Bool) : Conf → Prop
  | start {st : Parser} (new : Parser.new options trig = .ok st) :
      Run ok again options trig ⟨st, none⟩
  | round {c c' : Conf} {lx : Lexer} (before : Run ok again options trig c) (fits : ok c)
      (ran : c.next lx = .running c') : Run ok again options trig c'
  | call {c c' : Conf} {lx : Lexer} {result : Except ParseError Unit}
      (before : Run ok again options trig c) (fits : ok c) (goesOn : again c)
      (ran : c.next lx = .returned result c') : Run ok again options trig c'.call

/-- The parser is what its state assumes. -/
def Assumed (c : Conf) : Prop :=
  c.st.Coherent ∨ (c.st.state = .recover ∧ c.tok = none)

/-- No round from here panics, the quads of the call can be read back, and a construct beyond a
depth limit is an error. -/
structure Proceeds (c : Conf) : Prop where
  total : ∀ lx message st, c.next lx ≠ .panicked message st
  drains : ∃ quads, c.st.quads.iter = some quads
  reports : ∀ t, c.tok = some t → ExceedsDepth t c.st → Errs (dispatch t) c.st

/-- Handling the token keeps to what annotations and handles can hold: no reifier is delivered
to a triple whose triple term would nest too deeply, and the terms of the statement and of the
call's quads take less than `2 ^ 32` bytes each.  The column of the token is known, or the
grammar takes it where it stands. -/
structure Within (c : Conf) : Prop where
  reifier : ∀ t, c.tok = some t → DeliversReifier t c.st → c.st.AnnotationFits
  room : ∀ t, c.tok = some t → Room (handle t c.st).state
  buffer : c.st.quads.arena.bytes.length < 2 ^ 32
  placed : ∀ t, c.tok = some t → 0 < c.st.tokenStart.column ∨ Takes t c.st

theorem new_coherent {options : Options} {trig : Bool} {st : Parser}
    (new : Parser.new options trig = .ok st) : st.Coherent := by
  unfold Parser.new at new
  split at new
  · cases new
  · cases new
    refine ⟨?_, trivial, Or.inl rfl⟩
    constructor
    · exact all_none
    · exact all_none
    · exact all_none
    · exact fun _ _ _ last => by cases last
    · exact all_none
    · exact all_none
    · exact fun _ mem => by cases mem

theorem Assumed.of_token {c : Conf} {t : Token} (assumed : c.Assumed) (tok : c.tok = some t) :
    c.st.Coherent := by
  rcases assumed with coherent | ⟨_, none⟩
  · exact coherent
  · rw [tok] at none
    cases none

/-- A round ended well: what it leaves is as assumed, except after the error `deep`. -/
def EndsWell (deep : Prop) : Round → Prop
  | .running c => c.Assumed
  | .returned _ c => c.Assumed ∨ deep
  | .panicked .. => False

theorem fail_endsWell {e : ParseError} {st : Parser} {deep : Prop} (h : st.Coherent ∨ deep) :
    EndsWell deep (fail e st) := by
  unfold fail
  split
  · exact Or.inr ⟨rfl, rfl⟩
  · exact h.imp Or.inl id

/-- An error about a token in flight is placed. -/
theorem errAt_of_placed {c : Conf} {t : Token} {message : String} {st : Parser}
    (placed : 0 < c.st.tokenStart.column ∨ Takes t c.st)
    (ran : handle t c.st = .err message st) :
    dispatch t c.st = .err ⟨message, c.st.tokenStart⟩ st := by
  have known : c.st.tokenStart.column ≠ 0 := by
    rcases placed with positive | takes
    · exact Nat.ne_of_gt positive
    · have unfailing := unfailing_handle takes
      unfold Unfailing at unfailing
      rw [ran] at unfailing
      exact unfailing.elim
  unfold dispatch located
  rw [ran]
  simp only [errAt, if_neg known]
  rfl

theorem dispatch_endsWell {c : Conf} {t : Token} (assumed : c.Assumed) (within : c.Within)
    (tok : c.tok = some t) (lx : Lexer) : EndsWell c.TooDeep (c.next lx) := by
  have coherent := assumed.of_token tok
  have outcome := steps_handle coherent (within.reifier t tok) (within.room t tok)
  unfold next
  rw [tok]
  unfold wp at outcome
  simp only
  cases ran : handle t c.st with
  | ok again st =>
      rw [ran] at outcome
      rw [show dispatch t c.st = .ok again st from located_ok.mpr ran]
      exact Or.inl outcome
  | err message st =>
      rw [ran] at outcome
      rw [errAt_of_placed (within.placed t tok) ran]
      exact fail_endsWell (outcome.imp id fun deep => ⟨t, tok, deep⟩)
  | panic message st =>
      rw [ran] at outcome
      exact outcome.elim

/-- One round from what is assumed. -/
theorem next_endsWell {c : Conf} (assumed : c.Assumed) (within : c.Within) (lx : Lexer) :
    EndsWell c.TooDeep (c.next lx) := by
  cases tok : c.tok with
  | some t => exact dispatch_endsWell assumed within tok lx
  | none =>
      unfold next
      rw [tok]
      simp only
      split
      · split
        · exact Or.inl (coherent_start c.st none (Or.inl rfl))
        · exact Or.inl assumed
      · rename_i ready
        have coherent : c.st.Coherent := by
          rcases assumed with coherent | ⟨recover, _⟩
          · exact coherent
          · exact absurd recover ready
        cases lx.next with
        | needMore => exact Or.inl assumed
        | eof position =>
            simp only
            split
            · exact fail_endsWell (Or.inl coherent)
            · exact Or.inl assumed
        | token position t =>
            have range := coherent.range
            exact Or.inl ⟨{ range with }, coherent.nested, coherent.fits⟩
        | error e => exact fail_endsWell (Or.inl coherent)

theorem call_assumed {c : Conf} (assumed : c.Assumed) : c.call.Assumed := by
  rcases assumed with coherent | recover
  · have range := coherent.range
    exact Or.inl ⟨{ range with }, coherent.nested, coherent.fits⟩
  · exact Or.inr recover

/-- Every configuration of a run within the limits is what its state assumes. -/
theorem run_assumed {options : Options} {trig : Bool} {c : Conf}
    (run : Run Within (fun c => ¬ c.TooDeep) options trig c) : c.Assumed := by
  induction run with
  | start new => exact Or.inl (new_coherent new)
  | @round c c' lx _ fits ran ih =>
      have ends := next_endsWell ih fits lx
      rw [ran] at ends
      exact ends
  | @call c c' lx result _ fits goesOn ran ih =>
      have ends := next_endsWell ih fits lx
      rw [ran] at ends
      exact call_assumed (ends.resolve_right goesOn)

/-! ### The quads of the call -/

/-- The buffer holds what has been pushed since the call began. -/
def Buffered (st : Parser) : Prop := ∃ quads : List QuadRec, st.quads = quads.foldl .push .empty

theorem dispatch_buffered {st : Parser} (buffered : Buffered st) (t : Token) :
    Buffered (dispatch t st).state := by
  obtain ⟨quads, same⟩ := buffered
  obtain ⟨out, outcome, runs⟩ := dispatch_pushes t st
  have ran : dispatch t st = _ := runs st.quads
  refine ⟨quads ++ out, ?_⟩
  rw [ran, List.foldl_append, ← same]
  cases outcome <;> rfl

theorem fail_buffered {e : ParseError} {st : Parser} (buffered : Buffered st) :
    (∀ c, fail e st = .running c → Buffered c.st) ∧
      ∀ result c, fail e st = .returned result c → Buffered c.st := by
  unfold fail
  constructor
  · intro c same
    split at same <;> cases same
    exact buffered
  · intro result c same
    split at same <;> cases same
    exact buffered

theorem next_buffered {c c' : Conf} {lx : Lexer} (buffered : Buffered c.st)
    (ran : c.next lx = .running c') : Buffered c'.st := by
  unfold next at ran
  cases tok : c.tok with
  | some t =>
      have after := dispatch_buffered buffered t
      rw [tok] at ran
      simp only at ran
      generalize dispatch t c.st = outcome at ran after
      cases outcome with
      | ok again st =>
          cases ran
          exact after
      | err e st => exact (fail_buffered after).1 c' ran
      | panic message st => cases ran
  | none =>
      rw [tok] at ran
      simp only at ran
      split at ran
      · split at ran
        · cases ran
          exact buffered
        · cases ran
      · split at ran
        · cases ran
        · split at ran
          · exact (fail_buffered buffered).1 c' ran
          · cases ran
        · cases ran
          exact buffered
        · exact (fail_buffered buffered).1 c' ran

theorem run_buffered {ok again : Conf → Prop} {options : Options} {trig : Bool} {c : Conf}
    (run : Run ok again options trig c) : Buffered c.st := by
  induction run with
  | start new =>
      unfold Parser.new at new
      split at new
      · cases new
      · cases new
        exact ⟨[], rfl⟩
  | round _ _ ran ih => exact next_buffered ih ran
  | call _ _ _ _ _ => exact ⟨[], rfl⟩

/-- A short buffer is read back as what has been pushed. -/
theorem Buffered.drains {st : Parser} (buffered : Buffered st)
    (short : st.quads.arena.bytes.length < 2 ^ 32) : ∃ quads, st.quads.iter = some quads := by
  obtain ⟨quads, same⟩ := buffered
  rw [same] at short ⊢
  exact ⟨quads, iter_of_short short⟩

/-! ### What a run comes to -/

/-- A refused token beyond a depth limit: not a token that spans lines. -/
theorem reports_of_errs {c : Conf} {t : Token} (within : c.Within) (tok : c.tok = some t)
    (errs : Errs (handle t) c.st) : Errs (dispatch t) c.st := by
  obtain ⟨message, st, ran⟩ := errs
  exact ⟨_, _, errAt_of_placed (within.placed t tok) ran⟩

theorem proceeds_of_assumed {c : Conf} (assumed : c.Assumed) (buffered : Buffered c.st)
    (within : c.Within) : c.Proceeds := by
  constructor
  · intro lx message st panicked
    have ends := next_endsWell assumed within lx
    rw [panicked] at ends
    exact ends
  · exact buffered.drains within.buffer
  · intro t tok exceeds
    have coherent := assumed.of_token tok
    refine reports_of_errs within tok ?_
    rcases exceeds with ⟨opens, full⟩ | deep | ⟨opens | delivers, unfit⟩
    · exact errs_opensQuoted opens full
    · exact errs_closesTooDeep coherent deep
    · exact errs_opensBlock coherent opens unfit
    · exact absurd (within.reifier t tok delivers) unfit

/-- The driver never panics in a run within the limits: every configuration is what its state
assumes, and where the next token keeps to the limits as well no round panics, the quads can be
drained and every construct beyond a depth limit is reported. -/
theorem run_proceeds {options : Options} {trig : Bool} {c : Conf}
    (run : Run Within (fun c => ¬ c.TooDeep) options trig c) :
    c.Assumed ∧ (c.Within → c.Proceeds) :=
  ⟨run_assumed run, proceeds_of_assumed (run_assumed run) (run_buffered run)⟩

/-- Options of RDF 1.2 without a base. -/
def plainOptions : Options := ⟨none, true, false, none, false⟩

/-- With the first token of a statement in flight. -/
theorem run_proceeds_firstToken : ∃ st, Parser.new plainOptions false = .ok st ∧
    Assumed ⟨st, some (.iri "a:")⟩ ∧ Proceeds ⟨st, some (.iri "a:")⟩ := by
  have idle : ∀ st, Parser.new plainOptions false = .ok st → Within ⟨st, none⟩ := by
    intro st new
    refine ⟨fun _ tok => (Option.some_ne_none _ tok.symm).elim,
      fun _ tok => (Option.some_ne_none _ tok.symm).elim, ?_,
      fun _ tok => (Option.some_ne_none _ tok.symm).elim⟩
    cases new
    decide
  have start : ∀ st, Parser.new plainOptions false = .ok st →
      Run Within (fun c => ¬ c.TooDeep) plainOptions false ⟨st, none⟩ := fun _ new => Run.start new
  have read : ∀ st, Parser.new plainOptions false = .ok st →
      next ⟨st, none⟩ ⟨false, .token ⟨0, 1, 1⟩ (.iri "a:")⟩ = .running ⟨st, some (.iri "a:")⟩ := by
    intro st new
    cases new
    rfl
  refine ⟨_, rfl, ?_⟩
  have holds := run_proceeds ((start _ rfl).round (idle _ rfl) (read _ rfl))
  refine ⟨holds.1, holds.2 ⟨?_, ?_, by decide, fun _ _ => .inl (by decide)⟩⟩
  · intro t _ delivers
    rcases delivers with ⟨state, _⟩ | ⟨state, _⟩ <;> cases state
  · intro t tok
    cases tok
    unfold Room
    decide +kernel

end Graphy.Turtle.Conf
