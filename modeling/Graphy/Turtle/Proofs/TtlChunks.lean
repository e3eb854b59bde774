import Graphy.Turtle.Proofs.Chunks
import Graphy.Turtle.Proofs.Quads
import Graphy.Turtle.Proofs.TtlEmits

/-!
# Turtle and TriG in chunks

However the bytes of a document are cut into chunks, the parser delivers the same quads in the
same order, notes the same errors and fails at the same place.  In recovery a chunk may end in
the middle of a character that is forced past: the tokenizer refuses the rest of it as well.
-/

namespace Graphy.Turtle

/-! ## Characters cut in two -/

/-- A byte that no token, space or comment begins with. -/
def Refused (b : UInt8) : Prop :=
  opening b = .word ∧ charWidth b = none ∧ Cursor.isSpace b = false ∧ b ≠ 0x23 ∧ b ≠ 0x3A

theorem refused_of_continuation {b : UInt8} (h : isContinuation b = true) : Refused b := by
  have all : ∀ n : Fin 256, isContinuation (UInt8.ofNat n) = true →
      opening (UInt8.ofNat n) = .word ∧ charWidth (UInt8.ofNat n) = none ∧
        Cursor.isSpace (UInt8.ofNat n) = false ∧ UInt8.ofNat n ≠ 0x23 ∧ UInt8.ofNat n ≠ 0x3A := by
    decide +kernel
  have same : UInt8.ofNat b.toNat = b := UInt8.ofNat_toNat
  have at_ := all ⟨b.toNat, b.toNat_lt⟩
  simp only [same] at at_
  exact at_ h

namespace Cursor

variable {eof trusted : Bool} {c : Cursor}

/-- The tokenizer refuses the rest of a character at its first byte. -/
theorem next_continuation (eof trusted : Bool) {c : Cursor} {b : UInt8} {rest : Bytes}
    (whole : c.rest = b :: rest) (cont : isContinuation b = true) :
    ∃ message, c.next eof trusted = (.error ⟨message, c.position⟩, c) := by
  obtain ⟨word, width, space, comment, colon⟩ := refused_of_continuation cont
  have skipped : c.skipSpace eof = (true, c) := by
    rw [skipSpace_cons whole, if_neg (by simp [space]), if_neg comment]
  have read : lexToken eof trusted c.rest = .error 0 "invalid UTF-8" := by
    rw [whole]
    unfold lexToken
    dsimp only
    rw [word]
    dsimp only
    unfold lexWord
    rw [if_neg (by simpa using colon)]
    unfold charAt
    simp only [List.head?_cons, Option.bind_some, width]
    rfl
  exact ⟨_, next_of_error skipped (by simp [whole]) read⟩

theorem accept_min (c : Cursor) (n : Nat) : c.accept (min n c.rest.length) = c.accept n := by
  unfold accept
  rcases Nat.le_total n c.rest.length with le | le
  · rw [Nat.min_eq_left le]
  · rw [Nat.min_eq_right le, List.drop_of_length_le le, List.take_of_length_le le,
      List.drop_length, List.take_length]

/-! ## Skipping to the end of a statement -/

section Skip

variable {c' : Cursor}

theorem skipToStatementEnd_dot {p : Position} (h : c.next eof trusted = (.token p .dot, c')) :
    c.skipToStatementEnd eof trusted = (true, c') := by
  rw [skipToStatementEnd]
  split
  all_goals
    rename_i found
    cases h.symm.trans found
  rfl

theorem skipToStatementEnd_token {p : Position} {t : Token} (other : t ≠ .dot)
    (h : c.next eof trusted = (.token p t, c')) :
    c.skipToStatementEnd eof trusted = c'.skipToStatementEnd eof trusted := by
  rw [skipToStatementEnd]
  split
  all_goals
    rename_i found
    cases h.symm.trans found
  exact if_neg other

theorem skipToStatementEnd_needMore (h : c.next eof trusted = (.needMore, c')) :
    c.skipToStatementEnd eof trusted = (false, c') := by
  rw [skipToStatementEnd]
  split
  all_goals
    rename_i found
    cases h.symm.trans found
  rfl

theorem skipToStatementEnd_eof {p : Position} (h : c.next eof trusted = (.eof p, c')) :
    c.skipToStatementEnd eof trusted = (false, c') := by
  rw [skipToStatementEnd]
  split
  all_goals
    rename_i found
    cases h.symm.trans found
  rfl

theorem skipToStatementEnd_error {e : ParseError} (h : c.next eof trusted = (.error e, c')) :
    c.skipToStatementEnd eof trusted =
      (c'.recoverPast e.position.offset).skipToStatementEnd eof trusted := by
  rw [skipToStatementEnd]
  split
  all_goals
    rename_i found
    cases h.symm.trans found
  rfl

/-- Skipping goes the same way without the rest of the character that is forced past. -/
theorem skipToStatementEnd_continues (eof trusted : Bool) (c : Cursor) (bad : Nat) :
    (c.recoverPast bad).skipToStatementEnd eof trusted =
      (c.accept (max bad c.position.offset + 1 - c.position.offset)).skipToStatementEnd
        eof trusted := by
  unfold recoverPast
  simp only
  generalize max bad c.position.offset + 1 - c.position.offset = k
  rw [accept_min, ← accept_accept]
  have rest : (c.accept k).rest = c.rest.drop k := rfl
  rw [← rest]
  generalize c.accept k = c₁
  cases whole : c₁.rest with
  | nil => rw [List.takeWhile_nil, List.length_nil, accept_zero]
  | cons b tail =>
      by_cases cont : isContinuation b = true
      · obtain ⟨message, refused⟩ := next_continuation eof trusted whole cont
        have past : c₁.recoverPast c₁.position.offset =
            c₁.accept ((b :: tail).takeWhile isContinuation).length := by
          unfold recoverPast
          simp only [Nat.max_self, Nat.add_sub_cancel_left, whole, List.drop_succ_cons,
            List.drop_zero]
          rw [← whole, accept_min, whole, List.takeWhile_cons_of_pos cont, List.length_cons,
            Nat.add_comm]
        rw [skipToStatementEnd_error refused, past]
      · rw [List.takeWhile_cons_of_neg cont, List.length_nil, accept_zero]

end Skip

end Cursor

/-! ## The driver as a machine -/

namespace Parser

open Driver

/-- One token of a recovery. -/
def skipTurn : Lexed × Cursor → Skipped
  | (.token _ t, c) => if t = .dot then .found c else .past c
  | (.eof _, c) | (.needMore, c) => .short c
  | (.error e, c) => .past (c.accept (e.position.offset + 1 - c.position.offset))

noncomputable def asDriver : Driver Parser where
  trusted st := st.ctx.trusted
  recovering st := decide (st.state = .recover)
  skip eof st c := skipTurn (c.next eof st.ctx.trusted)
  recovered := recovered
  handle p t st := (step_pushes t).parts { st with tokenStart := p }
  complete st := decide (st.state = .statement ∧ st.stack = [])
  unfinished := "unexpected end of input"
  note e st := if st.lenient then some (st.note e) else none

/-- The byte an error is about is there. -/
theorem error_inside {trusted : Bool} {c c' : Cursor} {e : ParseError}
    (h : c.next false trusted = (.error e, c')) :
    e.position.offset + 1 - c'.position.offset ≤ c'.rest.length := by
  obtain ⟨-, more, off, read, position⟩ := Cursor.next_error h
  have settled := lexToken_settled false trusted more
  rw [read] at settled
  rw [position, advance_offset, List.length_take]
  have := settled.2 rfl
  omega

theorem error_behind {eof trusted : Bool} {c c' : Cursor} {e : ParseError}
    (h : c.next eof trusted = (.error e, c')) : c'.position.offset ≤ e.position.offset := by
  obtain ⟨-, more, off, read, position⟩ := Cursor.next_error h
  rw [position, advance_offset]
  exact Nat.le_add_right _ _

theorem asDriver_skips : asDriver.Skips where
  shrinks := by
    intro eof st c c' h
    change skipTurn (c.next eof st.ctx.trusted) = _ ∨ skipTurn (c.next eof st.ctx.trusted) = _ at h
    rcases read : c.next eof st.ctx.trusted with ⟨lexed, c₁⟩
    rw [read] at h
    cases lexed with
    | needMore => rcases h with h | h <;> cases h
    | eof p => rcases h with h | h <;> cases h
    | token p t =>
        have lt := Cursor.next_token_lt read
        unfold skipTurn at h
        dsimp only at h
        split at h
        · rcases h with h | h <;> cases h
          exact lt
        · rcases h with h | h <;> cases h
          exact lt
    | error e =>
        have le := Cursor.next_le read
        obtain ⟨-, more, -⟩ := Cursor.next_error read
        have := error_behind read
        have := List.length_pos_iff.mpr more
        rcases h with h | h
        · cases h
        · cases h
          show (c₁.rest.drop _).length < _
          rw [List.length_drop]
          omega
  noted := by
    intro e st st' h
    simp only [asDriver] at h
    split at h
    · cases h
      rfl
    · cases h
  found := by
    intro st c c' h eof chunk
    change skipTurn (c.next false st.ctx.trusted) = _ at h
    show skipTurn ((c.feed chunk).next eof st.ctx.trusted) = _
    rcases read : c.next false st.ctx.trusted with ⟨lexed, c₁⟩
    rw [read] at h
    cases lexed with
    | token p t =>
        rw [Cursor.next_feed_token eof chunk read]
        unfold skipTurn at h ⊢
        dsimp only at h ⊢
        split at h
        · rename_i dot
          cases h
          rw [if_pos dot]
        · cases h
    | needMore => cases h
    | eof p => cases h
    | error e => cases h
  past := by
    intro st c c' h eof chunk
    change skipTurn (c.next false st.ctx.trusted) = _ at h
    show skipTurn ((c.feed chunk).next eof st.ctx.trusted) = _
    rcases read : c.next false st.ctx.trusted with ⟨lexed, c₁⟩
    rw [read] at h
    cases lexed with
    | token p t =>
        rw [Cursor.next_feed_token eof chunk read]
        unfold skipTurn at h ⊢
        dsimp only at h ⊢
        split at h
        · cases h
        · rename_i other
          cases h
          rw [if_neg other]
    | error e =>
        rw [Cursor.next_feed_error eof chunk read]
        cases h
        exact congrArg Skipped.past (Cursor.feed_accept c₁ chunk (error_inside read))
    | needMore => cases h
    | eof p => cases h
  short := by
    intro st c c' h eof chunk
    change skipTurn (c.next false st.ctx.trusted) = _ at h
    show skipTurn ((c.feed chunk).next eof st.ctx.trusted) = skipTurn (Cursor.next ..)
    rcases read : c.next false st.ctx.trusted with ⟨lexed, c₁⟩
    rw [read] at h
    cases lexed with
    | needMore =>
        cases h
        rw [Cursor.next_feed_needMore eof chunk read]
    | eof p => exact absurd read Cursor.next_ne_eof
    | token p t =>
        unfold skipTurn at h
        dsimp only at h
        split at h <;> cases h
    | error e => cases h

/-! ## Pumping -/

section Pump

variable {eof : Bool} {lx lx' : Cursor} {s : Parser}

/-- Go on behind the dot, when there is one. -/
def resume (eof : Bool) (s : Parser) (skipped : Bool × Cursor) :
    Outcome ParseError (Cursor × Parser) Unit :=
  if skipped.1 then pump eof skipped.2 s.recovered else .ok () (skipped.2, s)

theorem pump_recovering (recovering : s.state = .recover) :
    pump eof lx s = resume eof s (lx.skipToStatementEnd eof s.ctx.trusted) := by
  rw [pump, if_pos recovering]
  split
  all_goals
    rename_i found
    rw [found]
    rfl

variable (driving : s.state ≠ .recover)
include driving

theorem pump_needMore (h : lx.next eof s.ctx.trusted = (.needMore, lx')) :
    pump eof lx s = .ok () (lx', s) := by
  rw [pump, if_neg driving]
  split
  all_goals
    rename_i found
    cases h.symm.trans found
  rfl

theorem pump_eof {p : Position} (h : lx.next eof s.ctx.trusted = (.eof p, lx')) :
    pump eof lx s = if s.state ≠ .statement ∨ s.stack ≠ [] then
        if s.lenient then pump eof lx' (s.note ⟨asDriver.unfinished, p⟩)
        else .err ⟨asDriver.unfinished, p⟩ (lx', s)
      else .ok () (lx', s) := by
  rw [pump, if_neg driving]
  split
  all_goals
    rename_i found
    cases h.symm.trans found
  rfl

theorem pump_error {e : ParseError} (h : lx.next eof s.ctx.trusted = (.error e, lx')) :
    pump eof lx s = if s.lenient then pump eof lx' (s.note e) else .err e (lx', s) := by
  rw [pump, if_neg driving]
  split
  all_goals
    rename_i found
    cases h.symm.trans found
  rfl

/-- The rest of pumping once a token has been handled. -/
def proceed (eof : Bool) (lx : Cursor) :
    Outcome ParseError Parser Unit → Outcome ParseError (Cursor × Parser) Unit
  | .ok _ s => pump eof lx s
  | .err e s => if s.lenient then pump eof lx (s.note e) else .err e (lx, s)
  | .panic message s => .panic message (lx, s)

theorem pump_token {p : Position} {t : Token}
    (h : lx.next eof s.ctx.trusted = (.token p t, lx')) :
    pump eof lx s = proceed eof lx' (step t { s with tokenStart := p }) := by
  rw [pump, if_neg driving]
  split
  all_goals
    rename_i found
    cases h.symm.trans found
  cases step t { s with tokenStart := p } <;> rfl

end Pump

theorem fail_agrees {eof : Bool} {buf : QuadBuf}
    {r : Outcome ParseError (Cursor × Parser) Unit} {out : List QuadRec} {e : ParseError}
    {lx : Cursor} {st : Parser}
    (same : r = if st.lenient then pump eof lx ((st.note e).withQuads (out.foldl QuadBuf.push buf))
      else .err e (lx, st.withQuads (out.foldl QuadBuf.push buf))) :
    Agrees withQuads QuadBuf.push pump eof buf r (asDriver.fail out e lx st) := by
  refine agrees_fail ?_ ?_
  · intro st' noted
    simp only [asDriver] at noted
    split at noted
    · rename_i lenient
      cases noted
      rw [same, if_pos lenient]
    · cases noted
  · intro none_
    simp only [asDriver] at none_
    split at none_
    · cases none_
    · rename_i strict
      rw [same, if_neg strict]
      rfl

/-- The quads of the call aside, pumping is what the driver does. -/
theorem pump_loops : Loops withQuads QuadBuf.push pump asDriver := by
  intro eof lx st buf
  by_cases recovering : st.state = .recover
  · rw [turn_recovering (decide_eq_true recovering)]
    have pumps : ∀ lx, pump eof lx (st.withQuads buf) = resume eof (st.withQuads buf)
        (lx.skipToStatementEnd eof st.ctx.trusted) := fun lx => pump_recovering recovering
    rw [pumps lx]
    show Agrees _ _ _ _ _ _ (asDriver.recover st (skipTurn (lx.next eof st.ctx.trusted)))
    rcases read : lx.next eof st.ctx.trusted with ⟨lexed, lx'⟩
    cases lexed with
    | needMore =>
        rw [Cursor.skipToStatementEnd_needMore read]
        rfl
    | eof p =>
        rw [Cursor.skipToStatementEnd_eof read]
        rfl
    | token p t =>
        by_cases dot : t = .dot
        · subst dot
          rw [Cursor.skipToStatementEnd_dot read]
          rfl
        · have past : skipTurn (.token p t, lx') = .past lx' := if_neg dot
          rw [past, Cursor.skipToStatementEnd_token dot read]
          exact (pumps lx').symm
    | error e =>
        have behind := error_behind read
        rw [Cursor.skipToStatementEnd_error read, Cursor.skipToStatementEnd_continues,
          Nat.max_eq_left behind]
        exact (pumps _).symm
  · rw [turn_driving (by simpa [asDriver] using recovering)]
    rcases read : lx.next eof (asDriver.trusted st) with ⟨lexed, lx'⟩
    cases lexed with
    | needMore => exact pump_needMore (s := st.withQuads buf) recovering read
    | eof p =>
        have ends := pump_eof (s := st.withQuads buf) recovering read
        by_cases complete : st.state = .statement ∧ st.stack = []
        · have waits : asDriver.drive st (.eof p, lx') = .wait (lx', st) :=
            if_pos (decide_eq_true complete)
          rw [waits]
          refine ends.trans (if_neg ?_)
          rintro (state | stack)
          · exact state complete.1
          · exact stack complete.2
        · have fails : asDriver.drive st (.eof p, lx') =
              asDriver.fail [] ⟨asDriver.unfinished, p⟩ lx' st :=
            if_neg (by simpa [asDriver] using complete)
          rw [fails]
          refine fail_agrees (ends.trans (if_pos ?_))
          exact Decidable.not_and_iff_or_not.mp complete
    | error e => exact fail_agrees (pump_error (s := st.withQuads buf) recovering read)
    | token p t =>
        have pumps := pump_token (s := st.withQuads buf) recovering read
        have runs := (step_pushes t).runs { st with tokenStart := p } buf
        change step t { st.withQuads buf with tokenStart := p } = _ at runs
        rw [runs] at pumps
        show Agrees withQuads QuadBuf.push pump eof buf _
          (asDriver.handled lx' ((step_pushes t).parts { st with tokenStart := p }))
        generalize (step_pushes t).parts { st with tokenStart := p } = parts at pumps ⊢
        obtain ⟨out, outcome⟩ := parts
        cases outcome with
        | ok a st' => exact pumps
        | err e st' => exact fail_agrees pumps
        | panic message st' => exact congrArg (report id) pumps

end Parser

/-! ## Reading -/

namespace TtlParser

open Driver Graphy.Comp

/-- Whether the terms of no call's quads take more bytes than their ranges reach. -/
def fits : List Bytes → TtlParser → Bool
  | [], p =>
      match finish p with
      | .ok _ p => decide (p.st.quads.arena.bytes.length < 2 ^ 32)
      | _ => true
  | chunk :: chunks, p =>
      match feed chunk p with
      | .ok _ p => decide (p.st.quads.arena.bytes.length < 2 ^ 32) && fits chunks p
      | _ => true

/-- How a call ends that finds the buffer empty. -/
def Called (eof : Bool) (os : List QuadRec) (r : Outcome ParseError TtlParser Unit) :
    (Cursor × Parser) ⊕ Failure → Prop
  | .inl (lx, st) => r = .ok () ⟨lx, eof, st.withQuads (os.foldl QuadBuf.push .empty)⟩
  | .inr failure => report id r = .error failure

theorem pump_called (eof : Bool) (lx : Cursor) (st : Parser) :
    ∃ os e, Parser.asDriver.machine.Pumps eof (lx, st) os e ∧
      Called eof os (pump ⟨lx, eof, st.withQuads .empty⟩) e := by
  obtain ⟨os, e, pumps, ends⟩ := Parser.pump_loops.pumps Parser.asDriver_skips eof lx st .empty
  refine ⟨os, e, pumps, ?_⟩
  unfold pump
  dsimp only
  generalize Parser.pump eof lx (st.withQuads .empty) = r at ends
  rcases e with ⟨lx', st'⟩ | failure
  · change r = _ at ends
    rw [ends]
    rfl
  · change report id r = _ at ends
    rcases r with ⟨a, lx', st'⟩ | ⟨e, lx', st'⟩ | ⟨message, lx', st'⟩ <;> cases ends
    · rfl
    · rfl

theorem drain_called {eof : Bool} {os : List QuadRec} {lx : Cursor} {st : Parser}
    (short : (os.foldl QuadBuf.push .empty).arena.bytes.length < 2 ^ 32) :
    drain ⟨lx, eof, st.withQuads (os.foldl QuadBuf.push .empty)⟩ =
      .ok os ⟨lx, eof, st.withQuads (os.foldl QuadBuf.push .empty)⟩ := by
  have read := iter_of_short short
  show expect (os.foldl QuadBuf.push .empty).iter _ _ = _
  rw [read]
  rfl

/-- What the caller sees when the machine reads these quads and ends so. -/
def delivered (os : List QuadRec) :
    (Cursor × Parser) ⊕ Failure → Except Failure (List QuadRec × TtlParser)
  | .inl (lx, st) => .ok (os, ⟨lx, true, st.withQuads .empty⟩)
  | .inr failure => .error failure

theorem delivered_append (os os' : List QuadRec) (e : (Cursor × Parser) ⊕ Failure) :
    delivered (os ++ os') e = (delivered os' e).map fun r => (os ++ r.1, r.2) := by
  cases e <;> rfl

/-- A call does not look at the quads of the call before. -/
theorem readFrom_withQuads (chunks : List Bytes) (lx : Cursor) (st : Parser) (buf : QuadBuf) :
    readFrom chunks ⟨lx, false, st.withQuads buf⟩ = readFrom chunks ⟨lx, false, st⟩ := by
  cases chunks <;> rfl

theorem fits_withQuads (chunks : List Bytes) (lx : Cursor) (st : Parser) (buf : QuadBuf) :
    fits chunks ⟨lx, false, st.withQuads buf⟩ = fits chunks ⟨lx, false, st⟩ := by
  cases chunks <;> rfl

/-- By induction on the chunks. -/
theorem readFrom_reads {chunks : List Bytes} {lx : Cursor} {st : Parser}
    (short : fits chunks ⟨lx, false, st⟩ = true) :
    ∃ os e, Parser.asDriver.machine.Reads chunks (lx, st) os e ∧
      report clearQuads (readFrom chunks ⟨lx, false, st⟩) = delivered os e := by
  induction chunks generalizing lx st with
  | nil =>
      obtain ⟨os, e, pumps, called⟩ := pump_called true lx st
      refine ⟨os, e, .finish pumps, ?_⟩
      have call : finish ⟨lx, false, st⟩ = pump ⟨lx, true, st.withQuads .empty⟩ := rfl
      rw [← call] at called
      show report clearQuads ((finish >>= fun _ => drain) _) = _
      rcases e with ⟨lx', st'⟩ | failure
      · have finished : finish ⟨lx, false, st⟩ = _ := called
        simp only [fits, finished, decide_eq_true_eq] at short
        rw [bind_ok finished, drain_called short]
        rfl
      · exact report_failed called
  | cons chunk chunks ih =>
      obtain ⟨os, e, pumps, called⟩ := pump_called false (lx.feed chunk) st
      have call : feed chunk ⟨lx, false, st⟩ =
          pump ⟨lx.feed chunk, false, st.withQuads .empty⟩ := rfl
      rw [← call] at called
      show ∃ os e, _ ∧ report clearQuads ((feed chunk >>= fun _ => drain >>= fun quads =>
        readFrom chunks >>= fun more => Pure.pure (quads ++ more)) _) = _
      rcases e with ⟨lx', st'⟩ | failure
      · have fed : feed chunk ⟨lx, false, st⟩ = _ := called
        simp only [fits, fed, Bool.and_eq_true, decide_eq_true_eq] at short
        obtain ⟨shortFirst, shortRest⟩ := short
        rw [fits_withQuads] at shortRest
        obtain ⟨os', e', reads, delivers⟩ := ih shortRest
        refine ⟨os ++ os', e', .feed pumps reads, ?_⟩
        rw [bind_ok fed, bind_ok (drain_called shortFirst), report_append, readFrom_withQuads,
          delivers, delivered_append]
      · exact ⟨os, _, .stop pumps, report_failed called⟩

/-- However a document is cut into chunks, the caller gets the same quads in the same order and
a parser in the same state, or the same failure. -/
theorem readFrom_cuts {p : TtlParser} (fresh : p.eof = false) {chunks chunks' : List Bytes}
    (same : chunks.flatten = chunks'.flatten) (short : p.fits chunks = true)
    (short' : p.fits chunks' = true) :
    report clearQuads (readFrom chunks p) = report clearQuads (readFrom chunks' p) := by
  obtain ⟨lx, eof, st⟩ := p
  cases fresh
  obtain ⟨os, e, reads, delivers⟩ := readFrom_reads short
  obtain ⟨os', e', reads', delivers'⟩ := readFrom_reads short'
  have steady := machine_steady Parser.asDriver_skips
  rw [Machine.reads_iff steady, same] at reads
  rw [Machine.reads_iff steady] at reads'
  obtain ⟨rfl, rfl⟩ := reads.unique reads'
  rw [delivers, delivers']

/-- A statement cut in the middle of an IRI, and recovery from bytes cut in a character. -/
theorem readFrom_cuts_sample :
    report clearQuads (readFrom [[0x3C, 0x61, 0x3A, 0x61], [0x3E, 0x61, 0xC2], [0xA7, 0x2E, 0x0A]]
      ((new ⟨none, true, true, none, false⟩ true).toOption.get rfl)) =
    report clearQuads (readFrom [[0x3C, 0x61, 0x3A, 0x61, 0x3E, 0x61, 0xC2, 0xA7, 0x2E, 0x0A]]
      ((new ⟨none, true, true, none, false⟩ true).toOption.get rfl)) :=
  readFrom_cuts rfl (by decide) (by decide +kernel) (by decide +kernel)

end TtlParser

end Graphy.Turtle
