import Graphy.Misc.Incremental
import Graphy.Turtle.Proofs.Feeding

/-!
# Drivers over the tokenizer

The parsers are one loop with different handlers: take the next token and handle it, or, in
recovery, look for the point to start afresh.  Such a loop is a machine that is fed in chunks,
and as tokens do not depend on the bytes behind them it does not matter how the bytes are cut.
-/

namespace Graphy.Turtle

/-- How a turn of recovery goes. -/
inductive Skipped where
  | found (c : Cursor)
  | past (c : Cursor)
  /-- The bytes run out. -/
  | short (c : Cursor)

/-- What a parser does between two tokens.  Its states say nothing of the quads so far. -/
structure Driver (τ : Type) where
  trusted : τ → Bool
  recovering : τ → Bool
  skip : Bool → τ → Cursor → Skipped
  recovered : τ → τ
  /-- The quads a token emits, and how handling it ends. -/
  handle : Position → Token → τ → List QuadRec × Outcome ParseError τ Unit
  /-- Whether the input may end. -/
  complete : τ → Bool
  unfinished : String
  /-- The state behind an error; nothing when errors are returned. -/
  note : ParseError → τ → Option τ

/-- What a parser stops with: an error, or a panic with its message. -/
abbrev Failure := ParseError ⊕ String

/-- What the caller of a parser sees: a result, or a failure. -/
def report {σ ρ α : Type} (seen : σ → ρ) :
    Outcome ParseError σ α → Except Failure (α × ρ)
  | .ok a s => .ok (a, seen s)
  | .err e _ => .error (.inl e)
  | .panic message _ => .error (.inr message)

section Report

variable {σ ρ ρ' α β : Type} {seen : σ → ρ}

theorem report_failed {m : Comp ParseError σ α} {f : α → Comp ParseError σ β} {s : σ}
    {failure : Failure} (h : report id (m s) = .error failure) :
    report seen ((m >>= f) s) = .error failure := by
  show report seen (Comp.andThen m f s) = _
  unfold Comp.andThen
  generalize m s = r at h
  cases r with
  | ok a s => cases h
  | err e s =>
      cases h
      rfl
  | panic message s =>
      cases h
      rfl

/-- Quads that are delivered before the rest. -/
theorem report_append {m : Comp ParseError σ (List β)} (before : List β) (s : σ) :
    report seen ((m >>= fun more => pure (before ++ more)) s) =
      (report seen (m s)).map fun r => (before ++ r.1, r.2) := by
  show report seen (Comp.andThen m _ s) = _
  unfold Comp.andThen
  cases m s <;> rfl

end Report

namespace Driver

variable {τ : Type} (k : Driver τ)

def fail (out : List QuadRec) (e : ParseError) (c : Cursor) (s : τ) :
    Turn (Cursor × τ) QuadRec Failure :=
  match k.note e s with
  | some s => .go out (c, s)
  | none => .stop out (.inl e)

def handled (c : Cursor) : List QuadRec × Outcome ParseError τ Unit →
    Turn (Cursor × τ) QuadRec Failure
  | (out, .ok _ s) => .go out (c, s)
  | (out, .err e s) => k.fail out e c s
  | (out, .panic message _) => .stop out (.inr message)

def recover (s : τ) : Skipped → Turn (Cursor × τ) QuadRec Failure
  | .found c => .go [] (c, k.recovered s)
  | .past c => .go [] (c, s)
  | .short c => .wait (c, s)

def drive (s : τ) : Lexed × Cursor → Turn (Cursor × τ) QuadRec Failure
  | (.needMore, c) => .wait (c, s)
  | (.eof p, c) => if k.complete s then .wait (c, s) else k.fail [] ⟨k.unfinished, p⟩ c s
  | (.token p t, c) => k.handled c (k.handle p t s)
  | (.error e, c) => k.fail [] e c s

def turn (eof : Bool) (cs : Cursor × τ) : Turn (Cursor × τ) QuadRec Failure :=
  if k.recovering cs.2 then k.recover cs.2 (k.skip eof cs.2 cs.1)
  else k.drive cs.2 (cs.1.next eof (k.trusted cs.2))

def machine : Machine (Cursor × τ) UInt8 QuadRec Failure where
  turn := k.turn
  feed chunk cs := (cs.1.feed chunk, cs.2)

/-- Recovery makes progress and does not depend on the bytes behind what it discards. -/
structure Skips : Prop where
  shrinks : ∀ {eof s c c'}, k.skip eof s c = .found c' ∨ k.skip eof s c = .past c' →
    c'.rest.length < c.rest.length
  noted : ∀ {e s s'}, k.note e s = some s' → k.recovering s' = true
  found : ∀ {s c c'}, k.skip false s c = .found c' →
    ∀ eof chunk, k.skip eof s (c.feed chunk) = .found (c'.feed chunk)
  past : ∀ {s c c'}, k.skip false s c = .past c' →
    ∀ eof chunk, k.skip eof s (c.feed chunk) = .past (c'.feed chunk)
  short : ∀ {s c c'}, k.skip false s c = .short c' →
    ∀ eof chunk, k.skip eof s (c.feed chunk) = k.skip eof s (c'.feed chunk)

variable {k}

theorem turn_recovering {s : τ} (h : k.recovering s = true) (eof : Bool) (c : Cursor) :
    k.machine.turn eof (c, s) = k.recover s (k.skip eof s c) := if_pos h

theorem turn_driving {s : τ} (h : k.recovering s ≠ true) (eof : Bool) (c : Cursor) :
    k.machine.turn eof (c, s) = k.drive s (c.next eof (k.trusted s)) := if_neg h

/-- A turn that does not wait goes the same way over a longer text. -/
def Follows (chunk : Bytes) (before behind : Turn (Cursor × τ) QuadRec Failure) : Prop :=
  match before with
  | .go out cs => behind = .go out (cs.1.feed chunk, cs.2)
  | .stop out r => behind = .stop out r
  | .wait _ => False

theorem fail_follows (chunk : Bytes) (out : List QuadRec) (e : ParseError) (c : Cursor) (s : τ) :
    Follows chunk (k.fail out e c s) (k.fail out e (c.feed chunk) s) := by
  unfold fail
  cases k.note e s <;> rfl

theorem handled_follows (chunk : Bytes) (c : Cursor)
    (r : List QuadRec × Outcome ParseError τ Unit) :
    Follows chunk (k.handled c r) (k.handled (c.feed chunk) r) := by
  obtain ⟨out, outcome⟩ := r
  cases outcome with
  | ok a s => rfl
  | err e s => exact fail_follows chunk out e c s
  | panic message s => rfl

/-- A turn waits and goes on behind the chunk, or goes the same way with it. -/
theorem turn_feed (skips : k.Skips) (eof : Bool) (chunk : Bytes) (c : Cursor) (s : τ) :
    (∃ c', k.machine.turn false (c, s) = .wait (c', s) ∧
      k.machine.turn eof (c.feed chunk, s) = k.machine.turn eof (c'.feed chunk, s)) ∨
    Follows chunk (k.machine.turn false (c, s)) (k.machine.turn eof (c.feed chunk, s)) := by
  by_cases recovering : k.recovering s = true
  · simp only [turn_recovering recovering]
    cases skipped : k.skip false s c with
    | found c' =>
        rw [skips.found skipped]
        exact .inr rfl
    | past c' =>
        rw [skips.past skipped]
        exact .inr rfl
    | short c' => exact .inl ⟨c', rfl, by rw [skips.short skipped]⟩
  · simp only [turn_driving recovering]
    rcases read : c.next false (k.trusted s) with ⟨lexed, c'⟩
    cases lexed with
    | needMore => exact .inl ⟨c', rfl, by rw [Cursor.next_feed_needMore eof chunk read]⟩
    | token p t =>
        rw [Cursor.next_feed_token eof chunk read]
        exact .inr (handled_follows chunk c' _)
    | eof p => exact absurd read Cursor.next_ne_eof
    | error e =>
        rw [Cursor.next_feed_error eof chunk read]
        exact .inr (fail_follows chunk [] e c' s)

theorem machine_steady (skips : k.Skips) : k.machine.Steady where
  feed_nil cs := congrArg (·, cs.2) (Cursor.feed_nil cs.1)
  feed_feed a b cs := congrArg (·, cs.2) (Cursor.feed_feed cs.1 a b)
  go := by
    intro cs cs' out ran eof chunk
    rcases turn_feed skips eof chunk cs.1 cs.2 with ⟨c', waits, -⟩ | follows
    · cases waits.symm.trans ran
    · rw [ran] at follows
      exact follows
  stop := by
    intro cs r out ran eof chunk
    rcases turn_feed skips eof chunk cs.1 cs.2 with ⟨c', waits, -⟩ | follows
    · cases waits.symm.trans ran
    · rw [ran] at follows
      exact follows
  wait := by
    intro cs cs' ran eof chunk
    rcases turn_feed skips eof chunk cs.1 cs.2 with ⟨c', waits, same⟩ | follows
    · cases waits.symm.trans ran
      exact same
    · rw [ran] at follows
      exact follows.elim

/-! ## Progress -/

/-- Every turn but the one that begins a recovery takes bytes. -/
def weight (cs : Cursor × τ) : Nat :=
  2 * cs.1.rest.length + if k.recovering cs.2 = true then 0 else 1

theorem weight_lt {cs cs' : Cursor × τ} (less : cs'.1.rest.length < cs.1.rest.length ∨
    cs'.1.rest.length ≤ cs.1.rest.length ∧ k.recovering cs.2 ≠ true ∧
      k.recovering cs'.2 = true) : k.weight cs' < k.weight cs := by
  unfold weight
  rcases less with lt | ⟨le, driving, recovering⟩
  · split <;> split <;> omega
  · rw [if_pos recovering, if_neg driving]
    omega

theorem fail_go {out out' : List QuadRec} {e : ParseError} {c : Cursor} {s : τ}
    {cs : Cursor × τ} (h : k.fail out e c s = .go out' cs) : cs.1 = c ∧ k.note e s = some cs.2 := by
  unfold fail at h
  split at h
  · rename_i noted
    cases h
    exact ⟨rfl, noted⟩
  · cases h

theorem go_weight (skips : k.Skips) {eof : Bool} {cs cs' : Cursor × τ} {out : List QuadRec}
    (h : k.machine.turn eof cs = .go out cs') : k.weight cs' < k.weight cs := by
  obtain ⟨c, s⟩ := cs
  by_cases recovering : k.recovering s = true
  · rw [turn_recovering recovering] at h
    cases skipped : k.skip eof s c with
    | found c' =>
        rw [skipped] at h
        cases h
        exact weight_lt (.inl (skips.shrinks (.inl skipped)))
    | past c' =>
        rw [skipped] at h
        cases h
        exact weight_lt (.inl (skips.shrinks (.inr skipped)))
    | short c' =>
        rw [skipped] at h
        cases h
  · rw [turn_driving recovering] at h
    rcases read : c.next eof (k.trusted s) with ⟨lexed, c'⟩
    have le := Cursor.next_le read
    have noted : ∀ {out' : List QuadRec} {e : ParseError}, k.fail out' e c' s = .go out cs' →
        k.weight cs' < k.weight (c, s) := by
      intro out' e failed
      obtain ⟨same, noted⟩ := fail_go failed
      exact weight_lt (.inr ⟨same ▸ le, recovering, skips.noted noted⟩)
    rw [read] at h
    cases lexed with
    | needMore => cases h
    | eof p =>
        change (if k.complete s = true then _ else _) = _ at h
        split at h
        · cases h
        · exact noted h
    | error e => exact noted h
    | token p t =>
        have lt := Cursor.next_token_lt read
        change k.handled c' (k.handle p t s) = _ at h
        generalize k.handle p t s = r at h
        obtain ⟨out', outcome⟩ := r
        cases outcome with
        | ok a s' =>
            cases h
            exact weight_lt (.inl lt)
        | err e s' => exact weight_lt (.inl ((fail_go h).1 ▸ lt))
        | panic message s' => cases h

/-! ## Loops -/

section Loops

variable {Q : Type}

variable (put : τ → Q → τ) (push : Q → QuadRec → Q)
  (pump : Bool → Cursor → τ → Outcome ParseError (Cursor × τ) Unit)

/-- What pumping comes to where the states hold quads as well, by the turn it begins with. -/
def Agrees (eof : Bool) (q : Q) (r : Outcome ParseError (Cursor × τ) Unit) :
    Turn (Cursor × τ) QuadRec Failure → Prop
  | .go out (c, s) => r = pump eof c (put s (out.foldl push q))
  | .wait (c, s) => r = .ok () (c, put s q)
  | .stop _ failure => report id r = .error failure

/-- A loop that goes the way of the turns, whatever quads its states hold. -/
def Loops (k : Driver τ) : Prop :=
  ∀ eof c s q, Agrees put push pump eof q (pump eof c (put s q)) (k.machine.turn eof (c, s))

variable {put push pump}

theorem agrees_fail {eof : Bool} {q : Q} {r : Outcome ParseError (Cursor × τ) Unit}
    {out : List QuadRec} {e : ParseError} {c : Cursor} {s : τ}
    (noted : ∀ s', k.note e s = some s' → r = pump eof c (put s' (out.foldl push q)))
    (returned : k.note e s = none → report id r = .error (.inl e)) :
    Agrees put push pump eof q r (k.fail out e c s) := by
  unfold fail
  split
  · rename_i s' note
    exact noted s' note
  · rename_i none_
    exact returned none_

/-- How a loop ends with these quads. -/
def Ends (put : τ → Q → τ) (q : Q) (r : Outcome ParseError (Cursor × τ) Unit) :
    (Cursor × τ) ⊕ Failure → Prop
  | .inl (c, s) => r = .ok () (c, put s q)
  | .inr failure => report id r = .error failure

/-- A loop always ends, and as the machine does. -/
theorem Loops.pumps (loops : Loops put push pump k) (skips : k.Skips) (eof : Bool) (c : Cursor)
    (s : τ) (q : Q) : ∃ os e, k.machine.Pumps eof (c, s) os e ∧
      Ends put (os.foldl push q) (pump eof c (put s q)) e := by
  induction weight : k.weight (c, s) using Nat.strongRecOn generalizing c s q with
  | ind n ih =>
      have agrees := loops eof c s q
      cases turn : k.machine.turn eof (c, s) with
      | go out cs' =>
          obtain ⟨c', s'⟩ := cs'
          have less := go_weight skips turn
          obtain ⟨os, e, pumps, ends⟩ := ih _ (weight ▸ less) c' s' (out.foldl push q) rfl
          refine ⟨out ++ os, e, .go turn pumps, ?_⟩
          rw [turn] at agrees
          rw [List.foldl_append, show pump eof c (put s q) = _ from agrees]
          exact ends
      | wait cs' =>
          rw [turn] at agrees
          exact ⟨[], _, .wait turn, agrees⟩
      | stop out r =>
          rw [turn] at agrees
          exact ⟨out, _, .stop turn, agrees⟩

end Loops

end Driver

end Graphy.Turtle
