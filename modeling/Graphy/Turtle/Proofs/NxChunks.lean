import Graphy.Turtle.Proofs.Chunks
import Graphy.Turtle.Proofs.NxEmits
import Graphy.Turtle.Proofs.RoundTrip

/-!
# The line formats in chunks

However the bytes of a document are cut into chunks, the parser delivers the same quads in the
same order, notes the same errors and fails at the same place.
-/

namespace Graphy.Turtle

/-! ## The driver as a machine -/

namespace NxDriver

open Driver

noncomputable def asDriver : Driver NxDriver where
  trusted d := d.ctx.trusted
  recovering d := decide (d.state = .recover)
  skip _ _ c := if c.skipPast.1 then .found c.skipPast.2 else .short c.skipPast.2
  recovered := resetStatement
  handle p t d := (step_pushes p t).parts d
  complete d := decide (d.state = .subject)
  unfinished := "unexpected end of input mid-statement"
  note e d := if d.lenient then some (d.note e) else none

theorem skipPast_feed_found {c c' : Cursor} (chunk : Bytes) (h : c.skipPast = (true, c')) :
    (c.feed chunk).skipPast = (true, c'.feed chunk) := by
  unfold Cursor.skipPast at h ⊢
  split at h
  · rename_i i found
    cases h
    have inside := idxOf?_lt found
    have longer : (c.feed chunk).rest.idxOf? 0x0A = some i := idxOf?_longer chunk found
    rw [longer]
    exact congrArg (Prod.mk true) (Cursor.feed_accept c chunk inside)
  · cases h

theorem skipPast_feed_short {c c' : Cursor} (chunk : Bytes) (h : c.skipPast = (false, c')) :
    (c.feed chunk).skipPast = (c'.feed chunk).skipPast := by
  unfold Cursor.skipPast at h
  split at h
  · cases h
  · rename_i missing
    cases h
    have through : ∀ n, (c.feed chunk).accept (c.rest.length + n) =
        ((c.accept c.rest.length).feed chunk).accept n := by
      intro n
      rw [← Cursor.accept_accept, Cursor.feed_accept c chunk (Nat.le_refl _)]
    have longer : (c.feed chunk).rest.idxOf? 0x0A =
        (chunk.idxOf? 0x0A).map (· + c.rest.length) := by
      show (c.rest ++ chunk).idxOf? 0x0A = _
      rw [List.idxOf?, List.findIdx?_append, ← List.idxOf?, missing, Option.none_or, List.idxOf?]
    have alone : ((c.accept c.rest.length).feed chunk).rest = chunk := by
      show c.rest.drop c.rest.length ++ chunk = chunk
      rw [List.drop_length, List.nil_append]
    have length : (c.feed chunk).rest.length = c.rest.length + chunk.length :=
      List.length_append
    unfold Cursor.skipPast
    rw [longer, alone]
    cases chunk.idxOf? 0x0A with
    | none =>
        show (false, (c.feed chunk).accept (c.feed chunk).rest.length) = _
        rw [length, through]
    | some i =>
        show (true, (c.feed chunk).accept (i + c.rest.length + 1)) = _
        rw [Nat.add_right_comm, Nat.add_comm, Nat.add_comm i 1, Nat.add_comm 1 i, through]

theorem skipPast_of_found {c c' : Cursor} {eof : Bool} {d : NxDriver}
    (h : asDriver.skip eof d c = .found c') : c.skipPast = (true, c') := by
  rcases skipped : c.skipPast with ⟨met, c₁⟩
  simp only [asDriver, skipped] at h
  cases met <;> cases h
  rfl

theorem skipPast_of_short {c c' : Cursor} {eof : Bool} {d : NxDriver}
    (h : asDriver.skip eof d c = .short c') : c.skipPast = (false, c') := by
  rcases skipped : c.skipPast with ⟨met, c₁⟩
  simp only [asDriver, skipped] at h
  cases met <;> cases h
  rfl

theorem skip_ne_past {c c' : Cursor} {eof : Bool} {d : NxDriver} :
    asDriver.skip eof d c ≠ .past c' := by
  intro h
  simp only [asDriver] at h
  split at h <;> cases h

theorem asDriver_skips : asDriver.Skips where
  shrinks := by
    intro eof d c c' h
    rcases h with found | past
    · exact Cursor.skipPast_lt (skipPast_of_found found)
    · exact absurd past skip_ne_past
  noted := by
    intro e d d' h
    simp only [asDriver] at h
    split at h
    · cases h
      rfl
    · cases h
  found := by
    intro d c c' h eof chunk
    have fed := skipPast_feed_found chunk (skipPast_of_found h)
    simp only [asDriver, fed, if_true]
  past := fun h => absurd h skip_ne_past
  short := by
    intro d c c' h eof chunk
    have fed := skipPast_feed_short chunk (skipPast_of_short h)
    simp only [asDriver, fed]

/-! ## Pumping -/

section Pump

variable {eof : Bool} {lx lx' : Cursor} {d : NxDriver}

theorem pump_found (recovering : d.state = .recover) (h : lx.skipPast = (true, lx')) :
    pump eof lx d = pump eof lx' d.resetStatement := by
  rw [pump, if_pos recovering]
  split
  all_goals
    rename_i found
    cases h.symm.trans found
  rfl

theorem pump_short (recovering : d.state = .recover) (h : lx.skipPast = (false, lx')) :
    pump eof lx d = .ok () (lx', d) := by
  rw [pump, if_pos recovering]
  split
  all_goals
    rename_i found
    cases h.symm.trans found
  rfl

variable (driving : d.state ≠ .recover)
include driving

theorem pump_needMore (h : lx.next eof d.ctx.trusted = (.needMore, lx')) :
    pump eof lx d = .ok () (lx', d) := by
  rw [pump, if_neg driving]
  split
  all_goals
    rename_i found
    rw [h] at found
    cases found
  rfl

/-- Pumping on after an error at the end of the input does nothing more. -/
theorem pump_eof {p : Position} (h : lx.next eof d.ctx.trusted = (.eof p, lx')) :
    pump eof lx d = if d.state = .subject then .ok () (lx', d)
      else if d.lenient then pump eof lx' (d.note ⟨asDriver.unfinished, p⟩)
      else .err ⟨asDriver.unfinished, p⟩ (lx', d) := by
  have nothing : lx'.skipPast = (false, lx') := by
    unfold Cursor.skipPast
    rw [Cursor.rest_of_eof h]
    exact congrArg (Prod.mk false) (Cursor.accept_zero lx')
  have nothingMore : pump eof lx' (d.note ⟨asDriver.unfinished, p⟩) =
      .ok () (lx', d.note ⟨asDriver.unfinished, p⟩) := pump_short rfl nothing
  rw [nothingMore, pump, if_neg driving]
  split
  all_goals
    rename_i found
    rw [h] at found
    cases found
  rfl

theorem pump_error {e : ParseError} (h : lx.next eof d.ctx.trusted = (.error e, lx')) :
    pump eof lx d = if d.lenient then pump eof lx' (d.note e) else .err e (lx', d) := by
  rw [pump, if_neg driving]
  split
  all_goals
    rename_i found
    rw [h] at found
    cases found
  rfl

end Pump

theorem fail_agrees {eof : Bool} {buf : QuadBuf} {r : Outcome ParseError (Cursor × NxDriver) Unit}
    {out : List QuadRec} {e : ParseError} {lx : Cursor} {d : NxDriver}
    (same : r = if d.lenient then pump eof lx ((d.note e).withQuads (out.foldl QuadBuf.push buf))
      else .err e (lx, d.withQuads (out.foldl QuadBuf.push buf))) :
    Agrees withQuads QuadBuf.push pump eof buf r (asDriver.fail out e lx d) := by
  refine agrees_fail ?_ ?_
  · intro d' noted
    simp only [asDriver] at noted
    split at noted
    · rename_i lenient
      cases noted
      rw [same, if_pos lenient]
    · cases noted
  · intro none_
    simp only [asDriver] at none_
    split at none_
    · cases none_
    · rename_i strict
      rw [same, if_neg strict]
      rfl

/-- The quads in the buffer aside, pumping is what the driver does. -/
theorem pump_loops : Loops withQuads QuadBuf.push pump asDriver := by
  intro eof lx d buf
  by_cases recovering : d.state = .recover
  · rw [turn_recovering (decide_eq_true recovering)]
    cases skipped : asDriver.skip eof d lx with
    | found lx' =>
        exact pump_found (d := d.withQuads buf) recovering (skipPast_of_found skipped)
    | past lx' => exact absurd skipped skip_ne_past
    | short lx' =>
        exact pump_short (d := d.withQuads buf) recovering (skipPast_of_short skipped)
  · rw [turn_driving (by simpa [asDriver] using recovering)]
    rcases read : lx.next eof (asDriver.trusted d) with ⟨lexed, lx'⟩
    cases lexed with
    | needMore => exact pump_needMore (d := d.withQuads buf) recovering read
    | eof p =>
        have ends := pump_eof (d := d.withQuads buf) recovering read
        by_cases complete : d.state = .subject
        · have waits : asDriver.drive d (.eof p, lx') = .wait (lx', d) :=
            if_pos (decide_eq_true complete)
          rw [waits]
          exact ends.trans (if_pos complete)
        · have fails : asDriver.drive d (.eof p, lx') = asDriver.fail [] ⟨asDriver.unfinished, p⟩ lx' d :=
            if_neg (by simpa [asDriver] using complete)
          rw [fails]
          exact fail_agrees (ends.trans (if_neg complete))
    | error e => exact fail_agrees (pump_error (d := d.withQuads buf) recovering read)
    | token p t =>
        have pumps := pump_token (d := d.withQuads buf) recovering read
        rw [(step_pushes p t).runs d buf] at pumps
        show Agrees withQuads QuadBuf.push pump eof buf _
          (asDriver.handled lx' ((step_pushes p t).parts d))
        generalize (step_pushes p t).parts d = parts at pumps ⊢
        obtain ⟨out, outcome⟩ := parts
        cases outcome with
        | ok a d' => exact pumps
        | err e d' => exact fail_agrees pumps
        | panic message d' => exact congrArg (report id) pumps

end NxDriver

/-! ## Reading -/

namespace NxParser

open NxDriver Driver Graphy.Comp

/-- Whether the terms of no call's quads take more bytes than their ranges reach. -/
def fits : List Bytes → NxParser → Bool
  | [], p =>
      match finish p with
      | .ok _ p => decide (p.driver.quads.arena.bytes.length < 2 ^ 32)
      | _ => true
  | chunk :: chunks, p =>
      match feed chunk p with
      | .ok _ p => decide (p.driver.quads.arena.bytes.length < 2 ^ 32) && fits chunks p
      | _ => true

/-- How a call ends that finds the buffer empty. -/
def Called (eof : Bool) (os : List QuadRec) (r : Outcome ParseError NxParser Unit) :
    (Cursor × NxDriver) ⊕ Failure → Prop
  | .inl (lx, d) => r = .ok () ⟨lx, eof, d.withQuads (os.foldl QuadBuf.push .empty)⟩
  | .inr failure => report id r = .error failure

theorem pump_called (eof : Bool) (lx : Cursor) (d : NxDriver) :
    ∃ os e, asDriver.machine.Pumps eof (lx, d) os e ∧
      Called eof os (pump ⟨lx, eof, d.withQuads .empty⟩) e := by
  obtain ⟨os, e, pumps, ends⟩ := pump_loops.pumps asDriver_skips eof lx d .empty
  refine ⟨os, e, pumps, ?_⟩
  unfold pump
  dsimp only
  generalize NxDriver.pump eof lx (d.withQuads .empty) = r at ends
  rcases e with ⟨lx', d'⟩ | failure
  · change r = _ at ends
    rw [ends]
    rfl
  · change report id r = _ at ends
    rcases r with ⟨a, lx', d'⟩ | ⟨e, lx', d'⟩ | ⟨message, lx', d'⟩ <;> cases ends
    · rfl
    · rfl

theorem drain_called {eof : Bool} {os : List QuadRec} {lx : Cursor} {d : NxDriver}
    (short : (os.foldl QuadBuf.push .empty).arena.bytes.length < 2 ^ 32) :
    drain ⟨lx, eof, d.withQuads (os.foldl QuadBuf.push .empty)⟩ =
      .ok (os) ⟨lx, eof, d.withQuads (os.foldl QuadBuf.push .empty)⟩ := by
  have read := iter_of_short short
  show expect (os.foldl QuadBuf.push .empty).iter _ _ = _
  rw [read]
  rfl

/-- What the caller sees when the machine reads these quads and ends so. -/
def delivered (os : List QuadRec) :
    (Cursor × NxDriver) ⊕ Failure → Except Failure (List QuadRec × NxParser)
  | .inl (lx, d) => .ok (os, ⟨lx, true, d.withQuads .empty⟩)
  | .inr failure => .error failure

theorem delivered_append (os os' : List QuadRec) (e : (Cursor × NxDriver) ⊕ Failure) :
    delivered (os ++ os') e = (delivered os' e).map fun r => (os ++ r.1, r.2) := by
  cases e <;> rfl

/-- A call does not look at the quads of the call before. -/
theorem readFrom_withQuads (chunks : List Bytes) (lx : Cursor) (d : NxDriver) (buf : QuadBuf) :
    readFrom chunks ⟨lx, false, d.withQuads buf⟩ = readFrom chunks ⟨lx, false, d⟩ := by
  cases chunks <;> rfl

theorem fits_withQuads (chunks : List Bytes) (lx : Cursor) (d : NxDriver) (buf : QuadBuf) :
    fits chunks ⟨lx, false, d.withQuads buf⟩ = fits chunks ⟨lx, false, d⟩ := by
  cases chunks <;> rfl

/-- By induction on the chunks. -/
theorem readFrom_reads {chunks : List Bytes} {lx : Cursor} {d : NxDriver}
    (short : fits chunks ⟨lx, false, d⟩ = true) :
    ∃ os e, asDriver.machine.Reads chunks (lx, d) os e ∧
      report clearQuads (readFrom chunks ⟨lx, false, d⟩) = delivered os e := by
  induction chunks generalizing lx d with
  | nil =>
      obtain ⟨os, e, pumps, called⟩ := pump_called true lx d
      refine ⟨os, e, .finish pumps, ?_⟩
      have call : finish ⟨lx, false, d⟩ = pump ⟨lx, true, d.withQuads .empty⟩ := rfl
      rw [← call] at called
      show report clearQuads ((finish >>= fun _ => drain) _) = _
      rcases e with ⟨lx', d'⟩ | failure
      · have finished : finish ⟨lx, false, d⟩ = _ := called
        simp only [fits, finished, decide_eq_true_eq] at short
        rw [bind_ok finished, drain_called short]
        rfl
      · exact report_failed called
  | cons chunk chunks ih =>
      obtain ⟨os, e, pumps, called⟩ := pump_called false (lx.feed chunk) d
      have call : feed chunk ⟨lx, false, d⟩ =
          pump ⟨lx.feed chunk, false, d.withQuads .empty⟩ := rfl
      rw [← call] at called
      show ∃ os e, _ ∧ report clearQuads ((feed chunk >>= fun _ => drain >>= fun quads =>
        readFrom chunks >>= fun more => Pure.pure (quads ++ more)) _) = _
      rcases e with ⟨lx', d'⟩ | failure
      · have fed : feed chunk ⟨lx, false, d⟩ = _ := called
        simp only [fits, fed, Bool.and_eq_true, decide_eq_true_eq] at short
        obtain ⟨shortFirst, shortRest⟩ := short
        rw [fits_withQuads] at shortRest
        obtain ⟨os', e', reads, delivers⟩ := ih shortRest
        refine ⟨os ++ os', e', .feed pumps reads, ?_⟩
        rw [bind_ok fed, bind_ok (drain_called shortFirst), report_append, readFrom_withQuads,
          delivers, delivered_append]
      · exact ⟨os, _, .stop pumps, report_failed called⟩

/-- However a document is cut into chunks, the caller gets the same quads in the same order and
a parser in the same state, or the same failure. -/
theorem readFrom_chunks {p : NxParser} (fresh : p.eof = false) {chunks chunks' : List Bytes}
    (same : chunks.flatten = chunks'.flatten) (short : p.fits chunks = true)
    (short' : p.fits chunks' = true) :
    report clearQuads (readFrom chunks p) = report clearQuads (readFrom chunks' p) := by
  obtain ⟨lx, eof, d⟩ := p
  cases fresh
  obtain ⟨os, e, reads, delivers⟩ := readFrom_reads short
  obtain ⟨os', e', reads', delivers'⟩ := readFrom_reads short'
  have steady := machine_steady asDriver_skips
  rw [Machine.reads_iff steady, same] at reads
  rw [Machine.reads_iff steady] at reads'
  obtain ⟨rfl, rfl⟩ := reads.unique reads'
  rw [delivers, delivers']

/-- A statement cut in the middle of an IRI and in front of the dot. -/
theorem readFrom_chunks_sample :
    report clearQuads (readFrom [[0x3C, 0x61, 0x3A], [0x61, 0x3E, 0x3C, 0x61, 0x3A, 0x62, 0x3E, 0x3C,
      0x61, 0x3A, 0x63, 0x3E], [0x2E, 0x0A]] (new ⟨none, true, false, none, false⟩ true false)) =
    report clearQuads (readFrom [[0x3C, 0x61, 0x3A, 0x61, 0x3E, 0x3C, 0x61, 0x3A, 0x62, 0x3E, 0x3C,
      0x61, 0x3A, 0x63, 0x3E, 0x2E, 0x0A]] (new ⟨none, true, false, none, false⟩ true false)) :=
  readFrom_chunks rfl (by decide) (by decide +kernel) (by decide +kernel)

end NxParser

end Graphy.Turtle
