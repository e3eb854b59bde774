import Graphy.Turtle.Highlight

/-!
# Driving the Turtle and TriG parser

Fed bytes are tokenized and parsed eagerly.  In lenient mode an error is noted and the driver
goes on behind the next dot, skipping tokens rather than bytes.
-/

namespace Graphy.Turtle

open Graphy.Comp

/-! ## Handling a token -/

/-- How often a state may hand its token on. -/
def S.rounds : S → Nat
  | .afterString | .annoReifier | .bracket => 2
  | .maybeGraph => 1
  | _ => 0

namespace Parser

theorem moves_rounds {n : Nat} {f : Parser → Parser} (next : S) (moves : ∀ st, (f st).state = next)
    (low : next.rounds < n) (st : Parser) :
    wlp (update f : M Unit) (fun _ st' => st'.state.rounds < n) st :=
  wlp_update (by rw [moves]; exact low)

theorem updateRt_rounds (f : Parts → Parts) {next : S} (low : next.rounds < 2) (st : Parser) :
    wlp (updateRt f next) (fun _ st' => st'.state.rounds < 2) st := by
  refine wlp_get ?_
  split
  · exact wlp_update low
  · exact wlp_crash _

theorem updateTt_rounds (f : Parts → Parts) {next : S} (low : next.rounds < 2) (st : Parser) :
    wlp (updateTt f next) (fun _ st' => st'.state.rounds < 2) st := by
  refine wlp_get ?_
  split
  · exact wlp_update low
  · exact wlp_crash _

theorem objectDone_rounds (h : H) (shorthand : Option Shorthand) (st : Parser) :
    wlp (objectDone h shorthand) (fun _ st' => st'.state.rounds < 2) st := by
  refine wlp_get ?_
  split
  · refine wlp_bind (wlp_of_forall fun n _ => wlp_bind (wlp_of_forall fun first _ => ?_))
    refine wlp_bind (wlp_of_forall fun _ _ => wlp_bind (wlp_of_forall fun _ _ => ?_))
    exact moves_rounds .object (fun _ => rfl) (by decide) _
  · refine wlp_bind (wlp_of_forall fun s _ => wlp_bind (wlp_of_forall fun p _ => ?_))
    refine wlp_bind (wlp_of_forall fun _ _ => ?_)
    exact moves_rounds .afterObject (fun _ => rfl) (by decide) _

/-- A delivered term leaves a state that hands a token on once at most. -/
theorem deliver_rounds (ret : Ret) (h : H) (shorthand : Option Shorthand) (st : Parser) :
    wlp (deliver ret h shorthand) (fun _ st' => st'.state.rounds < 2) st := by
  unfold deliver
  split
  · exact moves_rounds .verb (fun _ => rfl) (by decide) st
  · exact moves_rounds .verbOrDot (fun _ => rfl) (by decide) st
  · exact moves_rounds .maybeGraph (fun _ => rfl) (by decide) st
  · exact objectDone_rounds h shorthand st
  · exact updateRt_rounds _ (by decide) st
  · exact updateRt_rounds _ (by decide) st
  · exact updateRt_rounds _ (by decide) st
  · exact updateTt_rounds _ (by decide) st
  · exact updateTt_rounds _ (by decide) st
  · exact wlp_bind (wlp_of_forall fun _ _ => moves_rounds .graphOpen (fun _ => rfl) (by decide) _)
  · exact wlp_bind (wlp_of_forall fun _ _ => moves_rounds .afterObject (fun _ => rfl) (by decide) _)

/-- A state that hands its token on leaves one that may do so less often. -/
def HandsOn (n : Nat) (m : M Bool) : Prop :=
  ∀ st, wlp m (fun again st' => again = true → st'.state.rounds < n) st

theorem done_handsOn (n : Nat) (m : M Unit) : HandsOn n (done m) := by
  intro st
  exact wlp_bind (wlp_of_forall fun _ _ => wlp_pure fun again => Bool.noConfusion again)

theorem onMaybeGraph_handsOn (t : Token) : HandsOn 1 (onMaybeGraph t) := by
  intro st
  unfold onMaybeGraph
  split
  · refine wlp_get (wlp_bind (wlp_of_forall fun h _ => wlp_bind (wlp_of_forall fun _ _ => ?_)))
    exact wlp_bind (wlp_of_forall fun _ _ => wlp_pure fun again => Bool.noConfusion again)
  · refine wlp_bind fun u st' moved => wlp_pure fun _ => ?_
    exact moves_rounds .verb (fun _ => rfl) (by decide) st u st' moved

theorem onAfterString_handsOn (t : Token) : HandsOn 2 (onAfterString t) := by
  intro st
  refine wlp_get ?_
  split
  · exact done_handsOn 2 _ st
  · exact wlp_bind (wlp_of_forall fun _ st' => done_handsOn 2 _ st')
  · exact done_handsOn 2 _ st
  · exact done_handsOn 2 _ st
  · exact done_handsOn 2 _ st
  · exact done_handsOn 2 _ st
  · refine wlp_bind (wlp_bind (wlp_of_forall fun h st' => wlp_get ?_))
    intro u st'' delivered
    exact wlp_pure fun _ => deliver_rounds _ _ _ _ u st'' delivered

theorem onAnnoReifier_handsOn (t : Token) : HandsOn 2 (onAnnoReifier t) := by
  intro st
  refine wlp_bind (wlp_of_forall fun h st' => ?_)
  cases h with
  | some h => exact done_handsOn 2 _ st'
  | none =>
      simp only
      split
      · exact done_handsOn 2 _ st'
      · refine wlp_bind (wlp_of_forall fun r st'' => wlp_bind ?_)
        intro u st₃ delivered
        exact wlp_pure fun _ => deliver_rounds _ _ _ _ u st₃ delivered

theorem onBracket_handsOn (t : Token) : HandsOn 2 (onBracket t) := by
  intro st
  refine wlp_get ?_
  split
  · exact done_handsOn 2 _ st
  · split
    · refine wlp_bind (wlp_of_forall fun b st' => wlp_bind fun u st'' moved => wlp_pure fun _ => ?_)
      exact moves_rounds .verb (fun _ => rfl) (by decide) st' u st'' moved
    · intro a st' ran
      cases ran

theorem handle_handsOn (t : Token) (st : Parser) : wlp (handle t)
    (fun again st' => again = true → st'.state.rounds < st.state.rounds) st := by
  refine wlp_get ?_
  cases state : st.state
  case maybeGraph => exact onMaybeGraph_handsOn t st
  case afterString => exact onAfterString_handsOn t st
  case annoReifier => exact onAnnoReifier_handsOn t st
  case bracket => exact onBracket_handsOn t st
  case recover => exact wlp_crash _
  all_goals exact done_handsOn _ _ st

theorem located_ok {α : Type} {m : M α} {st st' : Parser} {a : α} :
    located m st = .ok a st' ↔ m st = .ok a st' := by
  unfold located
  cases m st with
  | ok b st₁ => simp
  | err message st₁ =>
      simp only [errAt]
      split <;> simp [Comp.crash, Comp.fail]
  | panic message st₁ => simp

theorem dispatch_handsOn {t : Token} {st st' : Parser} (h : dispatch t st = .ok true st') :
    st'.state.rounds < st.state.rounds :=
  handle_handsOn t st true st' (located_ok.mp h) rfl

/-- Handle a token: a state may finish pending work and hand the same token on. -/
def step (t : Token) (st : Parser) : Outcome ParseError Parser Unit :=
  match _h : dispatch t st with
  | .ok again st' => if _again : again = true then step t st' else .ok () st'
  | .err e st' => .err e st'
  | .panic message st' => .panic message st'
termination_by st.state.rounds
decreasing_by exact dispatch_handsOn (_again ▸ _h)

theorem step_ok {t : Token} {st st' : Parser} {again : Bool} (h : dispatch t st = .ok again st') :
    step t st = if again then step t st' else .ok () st' := by
  rw [step]
  split
  all_goals
    rename_i found
    cases h.symm.trans found
  cases again <;> rfl

theorem step_err {t : Token} {st st' : Parser} {e : ParseError}
    (h : dispatch t st = .err e st') : step t st = .err e st' := by
  rw [step]
  split
  all_goals
    rename_i found
    cases h.symm.trans found
  rfl

theorem step_panic {t : Token} {st st' : Parser} {message : String}
    (h : dispatch t st = .panic message st') : step t st = .panic message st' := by
  rw [step]
  split
  all_goals
    rename_i found
    cases h.symm.trans found
  rfl

/-- Note an error and go on behind the next dot. -/
def note (st : Parser) (e : ParseError) : Parser :=
  { st with errors := st.errors ++ [e], state := .recover }

/-- Start afresh behind the dot. -/
def recovered (st : Parser) : Parser :=
  { st.resetStatement with stack := [], graph := none, state := .statement }

end Parser

/-! ## Recovery -/

/-- Discard tokens through the next dot; whether there was one.  What the tokenizer refuses is
forced past. -/
def Cursor.skipToStatementEnd (eof trusted : Bool) (c : Cursor) : Bool × Cursor :=
  match _h : c.next eof trusted with
  | (.token _ t, c') => if t = .dot then (true, c') else c'.skipToStatementEnd eof trusted
  | (.eof _, c') | (.needMore, c') => (false, c')
  | (.error e, c') => (c'.recoverPast e.position.offset).skipToStatementEnd eof trusted
termination_by c.rest.length
decreasing_by
  · exact Cursor.next_token_lt _h
  · have ⟨_, more, _⟩ := Cursor.next_error _h
    exact Nat.lt_of_lt_of_le (Cursor.length_recoverPast_lt more) (Cursor.next_le _h)

theorem Cursor.skipToStatementEnd_lt {eof trusted : Bool} {c c' : Cursor}
    (h : c.skipToStatementEnd eof trusted = (true, c')) : c'.rest.length < c.rest.length := by
  fun_induction Cursor.skipToStatementEnd eof trusted c with
  | case1 c p c₁ read =>
      cases h
      exact Cursor.next_token_lt read
  | case2 c p t c₁ read other ih => exact Nat.lt_trans (ih h) (Cursor.next_token_lt read)
  | case3 => cases h
  | case4 => cases h
  | case5 c e c₁ read ih =>
      have ⟨_, more, _⟩ := Cursor.next_error read
      have past : (c₁.recoverPast e.position.offset).rest.length < c₁.rest.length :=
        Cursor.length_recoverPast_lt more
      exact Nat.lt_trans (ih h) (Nat.lt_of_lt_of_le past (Cursor.next_le read))

/-! ## Pumping -/

/-- Handle every token the bytes hold. -/
def Parser.pump (eof : Bool) (lx : Cursor) (st : Parser) :
    Outcome ParseError (Cursor × Parser) Unit :=
  if st.state = .recover then
    match _h : lx.skipToStatementEnd eof st.ctx.trusted with
    | (false, lx) => .ok () (lx, st)
    | (true, lx) => pump eof lx st.recovered
  else
    match _h : lx.next eof st.ctx.trusted with
    | (.needMore, lx) => .ok () (lx, st)
    | (.eof position, lx) =>
        if st.state ≠ .statement ∨ st.stack ≠ [] then
          let e : ParseError := ⟨"unexpected end of input", position⟩
          if st.lenient then pump eof lx (st.note e) else .err e (lx, st)
        else .ok () (lx, st)
    | (.token position t, lx) =>
        match Parser.step t { st with tokenStart := position } with
        | .ok _ st => pump eof lx st
        | .err e st => if st.lenient then pump eof lx (st.note e) else .err e (lx, st)
        | .panic message st => .panic message (lx, st)
    | (.error e, lx) => if st.lenient then pump eof lx (st.note e) else .err e (lx, st)
termination_by 2 * lx.rest.length + (if st.state = .recover then 0 else 1)
decreasing_by
  · rename_i recovering
    have lt := Cursor.skipToStatementEnd_lt _h
    rw [if_pos recovering, if_neg (by simp [Parser.recovered])]
    omega
  · rename_i driving _ _
    have le := Cursor.next_le _h
    rw [if_pos (by rfl), if_neg driving]
    omega
  · rename_i driving
    have lt := Cursor.next_token_lt _h
    rw [if_neg driving]
    split <;> omega
  · rename_i driving _
    have lt := Cursor.next_token_lt _h
    rw [if_neg driving]
    split <;> omega
  · rename_i driving _
    have le := Cursor.next_le _h
    rw [if_pos (by rfl), if_neg driving]
    omega

/-- A Turtle or TriG parser. -/
structure TtlParser where
  lx : Cursor
  eof : Bool
  st : Parser
deriving DecidableEq, Repr

namespace TtlParser

def new (options : Options) (trig : Bool) : Except ParseError TtlParser :=
  match Parser.new options trig with
  | .error e => .error e
  | .ok st => .ok ⟨⟨[], ⟨0, 1, 1⟩⟩, false, st⟩

def pump : Comp ParseError TtlParser Unit := fun p =>
  match Parser.pump p.eof p.lx p.st with
  | .ok () (lx, st) => .ok () { p with lx := lx, st := st }
  | .err e (lx, st) => .err e { p with lx := lx, st := st }
  | .panic message (lx, st) => .panic message { p with lx := lx, st := st }

/-- Drop the quads of the call before. -/
def clearQuads (p : TtlParser) : TtlParser :=
  { p with st := { p.st with quads := .empty } }

/-- Push a chunk and parse eagerly. -/
def feed (chunk : Bytes) : Comp ParseError TtlParser Unit := do
  update fun p => { p.clearQuads with lx := p.lx.feed chunk }
  pump

/-- Signal the end of the input and check that it ends cleanly. -/
def finish : Comp ParseError TtlParser Unit := do
  update fun p => { p.clearQuads with eof := true }
  pump

/-- The quads of the last call. -/
def drain : Comp ParseError TtlParser (List QuadRec) := do
  let p ← get
  expect p.st.quads.iter "range out of bounds"

/-- Feed chunks and finish; the quads of every call, in document order. -/
def readFrom : List Bytes → Comp ParseError TtlParser (List QuadRec)
  | [] => do
      finish
      drain
  | chunk :: chunks => do
      feed chunk
      let quads ← drain
      let more ← readFrom chunks
      return quads ++ more

end TtlParser

end Graphy.Turtle
