import Graphy.Turtle.Proofs.Runs

/-!
# A reifier of a deep triple

Triple terms close from the inside, each a level deeper than the one before.  A triple whose
object nests as deep as is allowed takes no reifier: its own triple term is a level too deep,
and the error is not returned but unwrapped.
-/

namespace Graphy.Turtle

open Graphy.Comp

namespace Parser

variable {st : Parser} {α β : Type}

/-- The computation returns with `Q`, unless it panics. -/
def Yields (m : M α) (Q : α → Parser → Prop) (st : Parser) : Prop :=
  match m st with
  | .ok a st' => Q a st'
  | .err _ _ => False
  | .panic _ _ => True

theorem yields_bind {m : M β} {f : β → M α} {Q : α → Parser → Prop}
    (h : Yields m (fun b st' => Yields (f b) Q st') st) : Yields (m >>= f) Q st := by
  show match andThen m f st with
    | .ok a st' => Q a st'
    | .err _ _ => False
    | .panic _ _ => True
  unfold Yields at h
  unfold andThen
  generalize m st = outcome at h ⊢
  cases outcome <;> exact h

theorem yields_mono {m : M α} {Q Q' : α → Parser → Prop} (h : Yields m Q st)
    (le : ∀ a st', Q a st' → Q' a st') : Yields m Q' st := by
  unfold Yields at h ⊢
  generalize m st = outcome at h ⊢
  cases outcome with
  | ok a st' => exact le a st' h
  | err e st' => exact h
  | panic message st' => trivial

theorem yields_get {f : Parser → M α} {Q : α → Parser → Prop} (h : Yields (f st) Q st) :
    Yields (get >>= f) Q st := h

theorem yields_update {g : Parser → Parser} {Q : Unit → Parser → Prop} (h : Q () (g st)) :
    Yields (update g) Q st := h

theorem yields_bytesOf {h : H} {Q : Bytes → Parser → Prop} (read : ∀ bytes, Q bytes st) :
    Yields (bytesOf h) Q st := by
  apply yields_get
  cases st.stmt.get h with
  | some bytes => exact read bytes
  | none => trivial

theorem yields_emitTerm {bytes : Bytes} {Q : H → Parser → Prop}
    (emitted : ∀ h stmt, Q h { st with stmt := stmt }) : Yields (emitTerm bytes) Q st :=
  emitted _ _

theorem yields_emit {s p o : H} {shorthand : Option Shorthand} {Q : Unit → Parser → Prop}
    (emitted : ∀ quads, Q () { st with quads := quads }) :
    Yields (emit s p o shorthand) Q st :=
  yields_bind (yields_bytesOf fun _ => yields_bind (yields_bytesOf fun _ =>
    yields_bind (yields_bytesOf fun _ => yields_update (emitted _))))

theorem yields_done {m : M Unit} {Q : Bool → Parser → Prop}
    (h : Yields m (fun _ => Q false) st) : Yields (done m) Q st := yields_bind h

/-! ## Closing -/

/-- Triple terms that wait for their objects, the innermost first. -/
def openTts : List (H × H) → List Frame
  | [] => []
  | (s, p) :: rest =>
      .tt ⟨some s, some p, none, none⟩ (if rest.isEmpty then .object else .ttObject) ::
        openTts rest

/-- The innermost of some triple terms is complete, with an object of depth `d`. -/
structure Closing (s p : H) (rest : List (H × H)) (d : Nat) (st : Parser) : Prop where
  state : st.state = .ttClose
  stack : ∃ o, st.ttDepth o = d ∧ st.stack = .tt ⟨some s, some p, some o, none⟩
    (if rest.isEmpty then .object else .ttObject) :: openTts rest
  subjects : ∀ frame ∈ (s, p) :: rest, st.ttDepth frame.1 ≤ d
  statement : st.subject.isSome = true ∧ st.predicate.isSome = true
  spec12 : st.spec12 = true

/-- A triple was asserted whose object has depth `d`. -/
structure Asserted (d : Nat) (st : Parser) : Prop where
  state : st.state = .afterObject
  last : ∃ s p o, st.last = some (s, p, o) ∧ st.ttDepth o = d
  unknown : st.curTt = none
  spec12 : st.spec12 = true

theorem ttDepth_noted (h : H) (d : Nat) (depths : List (H × Nat)) (x : H) :
    (((h, d) :: depths).lookup x).getD 0 = if x = h then d else (depths.lookup x).getD 0 := by
  rw [List.lookup_cons]
  by_cases same : x = h
  · rw [if_pos same, beq_iff_eq.mpr same]
    rfl
  · rw [if_neg same, beq_eq_false_iff_ne.mpr same]

/-- The depth of a term is noted for its handle. -/
theorem yields_buildTt {s p o : H} {d : Nat} {Q : H → Parser → Prop}
    (subject : st.ttDepth s ≤ d) (object : st.ttDepth o = d) (fits : d < Concise.maxTripleTermDepth)
    (built : ∀ h stmt, Q h { st with stmt := stmt, ttDepths := (h, d + 1) :: st.ttDepths }) :
    Yields (buildTt s p o) Q st := by
  have depth : st.tripleDepth s o = d + 1 := by
    unfold tripleDepth
    omega
  apply yields_get
  rw [depth, if_neg (by omega)]
  exact yields_bind (yields_bytesOf fun _ => yields_bind (yields_bytesOf fun _ => yields_bind
    (yields_bytesOf fun _ => yields_bind (yields_emitTerm fun h stmt => built h stmt))))

/-- Closing the innermost delivers it. -/
theorem Closing.close {s p : H} {rest : List (H × H)} {d : Nat} {Q : Unit → Parser → Prop}
    (closing : Closing s p rest d st) (fits : d < Concise.maxTripleTermDepth)
    (delivered : ∀ h stmt, Yields (deliver (if rest.isEmpty then .object else .ttObject) h none) Q
      { st with stack := openTts rest, stmt := stmt, ttDepths := (h, d + 1) :: st.ttDepths }) :
    Yields (handle .rParenGtGt) (fun again st' => again = false ∧ Q () st') st := by
  obtain ⟨o, depth, stack⟩ := closing.stack
  have subject := closing.subjects (s, p) List.mem_cons_self
  apply yields_get
  rw [closing.state]
  refine yields_done (Q := fun again st' => again = false ∧ Q () st') ?_
  apply yields_get
  simp only [stack]
  apply yields_bind
  apply yields_update
  apply yields_bind
  show Yields (expect (some p) _ >>= _) _ _
  apply yields_bind
  show Yields (expect (some o) _ >>= _) _ _
  apply yields_bind
  show Yields (buildTt s p o >>= _) _ _
  apply yields_bind
  refine yields_buildTt (d := d) subject depth fits fun h stmt => ?_
  exact yields_mono (delivered h stmt) fun _ _ after => ⟨trivial, after⟩

/-- An inner triple term becomes the object of the one around it. -/
theorem Closing.inner {s p s' p' : H} {rest : List (H × H)} {d : Nat}
    (closing : Closing s p ((s', p') :: rest) d st) (fits : d < Concise.maxTripleTermDepth) :
    Yields (handle .rParenGtGt) (fun again st' => again = false ∧ Closing s' p' rest (d + 1) st')
      st := by
  refine closing.close (Q := fun _ => Closing s' p' rest (d + 1)) fits fun h stmt => ?_
  refine ⟨rfl, ⟨h, ?_, rfl⟩, fun frame mem => ?_, closing.statement, closing.spec12⟩
  · show ((_ :: st.ttDepths).lookup h).getD 0 = d + 1
    rw [ttDepth_noted, if_pos rfl]
  · have known := closing.subjects frame (List.mem_cons_of_mem _ mem)
    show ((_ :: st.ttDepths).lookup frame.1).getD 0 ≤ d + 1
    rw [ttDepth_noted]
    split
    · exact Nat.le_refl _
    · exact known.trans (Nat.le_succ d)

/-- The outermost triple term is the object of the triple. -/
theorem Closing.outer {s p : H} {d : Nat} (closing : Closing s p [] d st)
    (fits : d < Concise.maxTripleTermDepth) :
    Yields (handle .rParenGtGt) (fun again st' => again = false ∧ Asserted (d + 1) st') st := by
  obtain ⟨subject, hs⟩ := Option.isSome_iff_exists.mp closing.statement.1
  obtain ⟨predicate, hp⟩ := Option.isSome_iff_exists.mp closing.statement.2
  refine closing.close (Q := fun _ => Asserted (d + 1)) fits fun h stmt => ?_
  apply yields_get
  simp only [openTts, hs, hp]
  apply yields_bind
  show Yields (expect (some predicate) _ >>= _) _ _
  apply yields_bind
  show Yields (emit subject predicate h none >>= _) _ _
  apply yields_bind
  refine yields_emit fun quads => ?_
  refine yields_update ⟨rfl, ⟨subject, predicate, h, rfl, ?_⟩, rfl, closing.spec12⟩
  show ((_ :: st.ttDepths).lookup h).getD 0 = d + 1
  rw [ttDepth_noted, if_pos rfl]

/-- A tilde leads to a reifier. -/
theorem Asserted.tilde {d : Nat} (asserted : Asserted d st) :
    Yields (handle .tilde) (fun again st' => again = false ∧ st'.state = .annoReifier ∧
      st'.curTt = none ∧ ∃ s p o, st'.last = some (s, p, o) ∧ st'.ttDepth o = d) st := by
  apply yields_get
  rw [asserted.state]
  apply yields_done
  show Yields (require12 "reifiers" >>= fun _ => setState .annoReifier) _ _
  apply yields_bind
  apply yields_get
  rw [if_pos asserted.spec12]
  exact yields_update ⟨rfl, rfl, asserted.unknown, asserted.last⟩

/-- A bare reifier of a triple that nests as deep as is allowed panics. -/
theorem panics_bareReifier {s p o : H} (coherent : st.Coherent)
    (state : st.state = .annoReifier) (unknown : st.curTt = none)
    (last : st.last = some (s, p, o)) (deep : Concise.maxTripleTermDepth ≤ st.ttDepth o) :
    ∃ message st', handle .dot st = .panic message st' := by
  have annotating := coherent.fits
  rw [state] at annotating
  obtain ⟨r, st₁, fresh, same⟩ : ∃ r st₁, freshBnode st = .ok r st₁ ∧
      st₁ = { st with ctx := st₁.ctx, stmt := st₁.stmt } := ⟨_, _, rfl, rfl⟩
  have errs : Errs (reify r) st₁ := by
    refine errs_reify ?_ ?_
    · rw [same]
      exact annotating
    · rw [same]
      rintro (known | within)
      · rw [show _ = none from unknown] at known
        cases known
      · have fits := within s p o last
        change 1 + max (st.ttDepth s) (st.ttDepth o) ≤ _ at fits
        omega
  obtain ⟨e, st₂, ran⟩ := errs
  refine ⟨"annotation follows an asserted triple", st₂, ?_⟩
  have expected : reifyExpected r st₁ = .panic "annotation follows an asserted triple" st₂ := by
    unfold reifyExpected
    rw [ran]
  have bare : handle .dot st = bareReifier st := by
    unfold handle
    rw [bind_ok (show get st = .ok st st from rfl), state]
    rfl
  rw [bare]
  unfold bareReifier
  rw [bind_ok fresh]
  show andThen (andThen (reifyExpected r) _) _ st₁ = _
  unfold andThen
  rw [expected]

end Parser

namespace Conf

open Turtle.Parser

/-! ## The run -/

variable {options : Options} {trig : Bool} {st : Parser} {t : Token}

/-- Every run, whatever its steps. -/
abbrev AnyRun (options : Options) (trig : Bool) : Conf → Prop :=
  Run (fun _ => True) (fun _ => True) options trig

/-- A token is read and handled, if nothing panics. -/
theorem anyRun_token {P : Parser → Prop} (run : AnyRun options trig ⟨st, none⟩)
    (proceeds : ∀ c, AnyRun options trig c → c.Assumed ∧ c.Proceeds)
    (ready : st.state ≠ .recover)
    (handled : ∀ start, Yields (handle t) (fun again st' => again = false ∧ P st')
      { st with tokenStart := start }) : ∃ st', AnyRun options trig ⟨st', none⟩ ∧ P st' := by
  have read : next ⟨st, none⟩ ⟨false, .token ⟨0, 1, 1⟩ t⟩ =
      .running ⟨{ st with tokenStart := ⟨0, 1, 1⟩ }, some t⟩ := by
    unfold next
    simp only [if_neg ready]
  have flight := run.round trivial read
  have total := (proceeds _ flight).2.total ⟨false, .needMore⟩
  have ends := handled ⟨0, 1, 1⟩
  unfold Yields at ends
  cases ran : handle t { st with tokenStart := ⟨0, 1, 1⟩ } with
  | ok again st' =>
      rw [ran] at ends
      obtain ⟨rfl, holds⟩ := ends
      have taken : next ⟨{ st with tokenStart := ⟨0, 1, 1⟩ }, some t⟩ ⟨false, .needMore⟩ =
          .running ⟨st', none⟩ := by
        unfold next dispatch located
        simp only [ran]
        rfl
      exact ⟨st', flight.round trivial taken, holds⟩
  | err message st' =>
      rw [ran] at ends
      exact ends.elim
  | panic message st' =>
      refine absurd ?_ (total message st')
      unfold next dispatch located
      simp only [ran]

/-- Triple terms close one after the other. -/
theorem anyRun_close (proceeds : ∀ c, AnyRun options trig c → c.Assumed ∧ c.Proceeds) :
    ∀ (rest : List (H × H)) {s p : H} {d : Nat} {st : Parser}, AnyRun options trig ⟨st, none⟩ →
      Closing s p rest d st → d + rest.length < Concise.maxTripleTermDepth →
        ∃ st', AnyRun options trig ⟨st', none⟩ ∧ Asserted (d + rest.length + 1) st' := by
  intro rest
  induction rest with
  | nil =>
      intro s p d st run closing fits
      refine anyRun_token (t := .rParenGtGt) run proceeds (by rw [closing.state]; decide) ?_
      intro start
      exact Closing.outer ⟨closing.state, closing.stack, closing.subjects, closing.statement,
        closing.spec12⟩ fits
  | cons frame rest ih =>
      intro s p d st run closing fits
      rw [List.length_cons] at fits
      obtain ⟨st', run', closing'⟩ := anyRun_token (t := .rParenGtGt) run proceeds
        (P := Closing frame.1 frame.2 rest (d + 1)) (by rw [closing.state]; decide) fun start =>
          Closing.inner ⟨closing.state, closing.stack, closing.subjects, closing.statement,
            closing.spec12⟩ (by omega)
      obtain ⟨st'', run'', asserted⟩ := ih run' closing' (by omega)
      refine ⟨st'', run'', ?_⟩
      rw [List.length_cons, show d + (rest.length + 1) + 1 = d + 1 + rest.length + 1 by omega]
      exact asserted

/-- After a triple that nests as deep as is allowed a bare reifier panics. -/
theorem not_proceeds_of_asserted {d : Nat} (run : AnyRun options trig ⟨st, none⟩)
    (asserted : Asserted d st) (deep : Concise.maxTripleTermDepth ≤ d) :
    ¬ ∀ c, AnyRun options trig c → c.Assumed ∧ c.Proceeds := by
  intro proceeds
  obtain ⟨st', run', state, unknown, s, p, o, last, depth⟩ :=
    anyRun_token (t := .tilde) run proceeds (by rw [asserted.state]; decide) fun start =>
      Asserted.tilde ⟨asserted.state, asserted.last, asserted.unknown, asserted.spec12⟩
  have read : next ⟨st', none⟩ ⟨false, .token ⟨0, 1, 1⟩ .dot⟩ =
      .running ⟨{ st' with tokenStart := ⟨0, 1, 1⟩ }, some .dot⟩ := by
    unfold next
    simp only [state]
    rfl
  have flight := run'.round trivial read
  obtain ⟨assumed, holds⟩ := proceeds _ flight
  obtain ⟨message, st'', ran⟩ := panics_bareReifier (assumed.of_token rfl) state unknown last
    (deep.trans_eq depth.symm)
  refine holds.total ⟨false, .needMore⟩ message st'' ?_
  unfold next dispatch located
  simp only [ran]

/-! ## The document -/

/-- Rounds for as long as the lexer answers. -/
def drive (c : Conf) : List Lexer → Round
  | [] => .running c
  | lx :: rest =>
      match c.next lx with
      | .running c' => drive c' rest
      | .returned result c' => .returned result c'
      | .panicked message st => .panicked message st

theorem anyRun_drive {lxs : List Lexer} : ∀ {c c' : Conf}, AnyRun options trig c →
    drive c lxs = .running c' → AnyRun options trig c' := by
  induction lxs with
  | nil =>
      intro c c' run ends
      cases ends
      exact run
  | cons lx rest ih =>
      intro c c' run ends
      unfold drive at ends
      cases ran : c.next lx with
      | running c₁ =>
          rw [ran] at ends
          exact ih (run.round trivial ran) ends
      | returned result c₁ =>
          rw [ran] at ends
          cases ends
      | panicked message st =>
          rw [ran] at ends
          cases ends

/-- Each token takes a round to read and one to handle. -/
def answers (tokens : List Token) : List Lexer :=
  tokens.flatMap fun t => [⟨false, .token ⟨0, 1, 1⟩ t⟩, ⟨false, .needMore⟩]

/-- A triple up to the innermost object of 32 nested triple terms. -/
def deepTriple : List Token :=
  [.iri "a:", .iri "a:"] ++ (List.replicate 32 [.ltLtParen, .iri "a:", .iri "a:"]).flatten ++
    [.iri "a:"]

/-- Subject and predicate of the 32 triple terms, the innermost first. -/
def deepTerms : List (H × H) :=
  (List.range 32).reverse.map fun i => (⟨6 * i + 6, 6 * i + 9⟩, ⟨6 * i + 9, 6 * i + 12⟩)

/-- Nothing but objects is missing, and no triple term is built. -/
def Unclosed (st : Parser) : Prop :=
  st.state = .ttClose ∧ st.stack = .tt ⟨some ⟨192, 195⟩, some ⟨195, 198⟩, some ⟨198, 201⟩, none⟩
    .ttObject :: openTts deepTerms.tail ∧ st.ttDepths = [] ∧ st.subject.isSome = true ∧
    st.predicate.isSome = true ∧ st.spec12 = true

instance (st : Parser) : Decidable (Unclosed st) := inferInstanceAs (Decidable (_ ∧ _))

def readsDeep : Round → Bool
  | .running ⟨st, none⟩ => decide (Unclosed st)
  | _ => false

theorem Unclosed.closing (h : Unclosed st) : ∃ s p rest, rest.length = 31 ∧ Closing s p rest 0 st := by
  obtain ⟨state, stack, depths, subject, predicate, spec12⟩ := h
  have none_ : ∀ x, st.ttDepth x = 0 := by
    intro x
    unfold ttDepth
    rw [depths]
    rfl
  exact ⟨_, _, deepTerms.tail, rfl, state, ⟨_, none_ _, stack⟩, fun _ _ => (none_ _).le,
    ⟨subject, predicate⟩, spec12⟩

/-- A bare reifier of a triple whose object nests 32 deep panics. -/
theorem not_run_proceeds :
    ¬ ∀ options trig c, Run (fun _ => True) (fun _ => True) options trig c →
      c.Assumed ∧ c.Proceeds := by
  intro all
  have proceeds := all plainOptions false
  obtain ⟨st, new⟩ : ∃ st, Parser.new plainOptions false = .ok st := ⟨_, rfl⟩
  have reads : readsDeep (drive ⟨st, none⟩ (answers deepTriple)) = true := by
    cases new
    decide +kernel
  unfold readsDeep at reads
  split at reads
  · rename_i opened ends
    have run := anyRun_drive (Run.start new) ends
    obtain ⟨s, p, rest, length, closing⟩ := (of_decide_eq_true reads).closing
    obtain ⟨asserted, run', holds⟩ := anyRun_close proceeds rest run closing (by
      rw [length]
      decide)
    exact not_proceeds_of_asserted run' holds (by
      rw [length]
      decide) proceeds
  · cases reads

end Conf

end Graphy.Turtle
