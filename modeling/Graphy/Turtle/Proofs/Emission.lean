import Graphy.Turtle.Parser

/-!
# What building terms and quads does to the parser

The arena only grows while a token is handled, so a handle that is in range stays in
range, and 32 bits hold every handle as long as the arena ends below `2 ^ 32` bytes.
-/

namespace Graphy.Turtle

open Graphy.Comp

namespace Parser

/-! ## Growth -/

/-- Bytes of the statement's arena. -/
def size (st : Parser) : Nat := st.stmt.bytes.length

/-- Handles still fit in 32 bits. -/
def Room (st : Parser) : Prop := st.size < 2 ^ 32

/-- The arena does not shrink, however the computation ends. -/
def Grows {α : Type} (m : M α) : Prop := ∀ st, st.size ≤ (m st).state.size

variable {α β : Type}

theorem grows_pure (a : α) : Grows (pure a : M α) := fun st => Nat.le_refl st.size

theorem grows_get : Grows (get : M Parser) := fun st => Nat.le_refl st.size

theorem grows_err (message : String) : Grows (err message : M α) := fun st => Nat.le_refl st.size

theorem grows_crash (message : String) : Grows (crash message : M α) :=
  fun st => Nat.le_refl st.size

theorem grows_update {f : Parser → Parser} (h : ∀ st, (f st).stmt = st.stmt) :
    Grows (update f : M Unit) := by
  intro st
  show st.size ≤ (f st).size
  unfold size
  rw [h st]

theorem grows_bind {m : M α} {f : α → M β} (hm : Grows m) (hf : ∀ a, Grows (f a)) :
    Grows (m >>= f) := by
  intro st
  have first := hm st
  show st.size ≤ (andThen m f st).state.size
  unfold andThen
  cases ran : m st with
  | ok a st' =>
      rw [ran] at first
      exact le_trans first (hf a st')
  | err e st' =>
      rw [ran] at first
      exact first
  | panic message st' =>
      rw [ran] at first
      exact first

theorem grows_expect (o : Option α) (message : String) : Grows (expect o message : M α) := by
  cases o with
  | none => exact grows_crash message
  | some a => exact grows_pure a

theorem grows_emitTerm (bytes : Bytes) : Grows (emitTerm bytes) := by
  intro st
  show st.size ≤ (st.stmt.append bytes).bytes.length
  unfold size Arena.append
  rw [List.length_append]
  exact Nat.le_add_right _ _

theorem grows_bytesOf (h : H) : Grows (bytesOf h) :=
  grows_bind grows_get fun _ => grows_expect _ _

theorem grows_wellKnown (iri : String) : Grows (wellKnown iri) := grows_emitTerm _

theorem grows_freshBnode : Grows freshBnode :=
  grows_bind grows_get fun _ => grows_bind (grows_update fun _ => rfl) fun _ => grows_emitTerm _

theorem grows_emit (s p o : H) (shorthand : Option Shorthand) : Grows (emit s p o shorthand) :=
  grows_bind (grows_bytesOf s) fun _ => grows_bind (grows_bytesOf p) fun _ =>
    grows_bind (grows_bytesOf o) fun _ => grows_update fun _ => rfl

theorem grows_writeTt (s p o : H) (depth : Nat) : Grows (writeTt s p o depth) :=
  grows_bind (grows_bytesOf s) fun _ => grows_bind (grows_bytesOf p) fun _ =>
    grows_bind (grows_bytesOf o) fun _ => grows_bind (grows_emitTerm _) fun _ =>
      grows_bind (grows_update fun _ => rfl) fun _ => grows_pure _

theorem grows_buildTt (s p o : H) : Grows (buildTt s p o) := by
  apply grows_bind grows_get
  intro st
  split
  · exact grows_err _
  · exact grows_writeTt s p o _

theorem grows_annotationTt : Grows annotationTt := by
  apply grows_bind grows_get
  intro st
  cases st.curTt with
  | some h => exact grows_pure h
  | none =>
      cases st.last with
      | none => exact grows_err _
      | some triple =>
          exact grows_bind (grows_buildTt _ _ _) fun _ =>
            grows_bind (grows_update fun _ => rfl) fun _ => grows_pure _

theorem grows_reify (r : H) : Grows (reify r) :=
  grows_bind grows_annotationTt fun _ => grows_bind (grows_wellKnown _) fun _ => grows_emit _ _ _ _

theorem grows_reifyExpected (r : H) : Grows (reifyExpected r) := by
  intro st
  have first := grows_reify r st
  unfold reifyExpected
  generalize reify r st = outcome at first ⊢
  cases outcome <;> exact first

theorem grows_linkTail (tail : Option H) (n : H) : Grows (linkTail tail n) := by
  cases tail with
  | none => exact grows_pure ()
  | some t => exact grows_bind (grows_wellKnown _) fun _ => grows_emit _ _ _ _

theorem grows_objectDone (h : H) (shorthand : Option Shorthand) :
    Grows (objectDone h shorthand) := by
  apply grows_bind grows_get
  intro st
  split
  · exact grows_bind grows_freshBnode fun _ => grows_bind (grows_wellKnown _) fun _ =>
      grows_bind (grows_linkTail _ _) fun _ => grows_bind (grows_emit _ _ _ _) fun _ =>
        grows_update fun _ => rfl
  · exact grows_bind (grows_expect _ _) fun _ => grows_bind (grows_expect _ _) fun _ =>
      grows_bind (grows_emit _ _ _ _) fun _ => grows_update fun _ => rfl

theorem grows_updateRt (f : Parts → Parts) (next : S) : Grows (updateRt f next) := by
  apply grows_bind grows_get
  intro st
  split
  · exact grows_update fun _ => rfl
  · exact grows_crash _

theorem grows_updateTt (f : Parts → Parts) (next : S) : Grows (updateTt f next) := by
  apply grows_bind grows_get
  intro st
  split
  · exact grows_update fun _ => rfl
  · exact grows_crash _

theorem grows_deliver (ret : Ret) (h : H) (shorthand : Option Shorthand) :
    Grows (deliver ret h shorthand) := by
  cases ret with
  | subject => exact grows_update fun _ => rfl
  | subjectOptionalPol => exact grows_update fun _ => rfl
  | statementNode => exact grows_update fun _ => rfl
  | object => exact grows_objectDone h shorthand
  | rtSubject => exact grows_updateRt _ _
  | rtObject => exact grows_updateRt _ _
  | rtReifier => exact grows_updateRt _ _
  | ttSubject => exact grows_updateTt _ _
  | ttObject => exact grows_updateTt _ _
  | graphName => exact grows_bind (grows_bytesOf h) fun _ => grows_update fun _ => rfl
  | annoReifier => exact grows_bind (grows_reifyExpected h) fun _ => grows_update fun _ => rfl

/-! ## Safety under room -/

/-- The condition of `wp`, for computations that end with room in the arena. -/
def safe (m : M α) (Q : α → Parser → Prop) (E : Parser → Prop) (st : Parser) : Prop :=
  Room (m st).state → wp m Q E st

variable {Q : α → Parser → Prop} {E : Parser → Prop} {st : Parser}

theorem safe_of_wp {m : M α} (h : wp m Q E st) : safe m Q E st := fun _ => h

theorem safe_pure {a : α} (h : Q a st) : safe (pure a : M α) Q E st := fun _ => h

theorem safe_liftErr {r : Except String β} {f : β → M α}
    (ok : ∀ a, r = .ok a → safe (f a) Q E st) (failed : E st) :
    safe (liftErr r >>= f) Q E st := by
  cases r with
  | error message => exact fun _ => failed
  | ok a => exact ok a rfl

theorem safe_err {message : String} (h : E st) : safe (err message : M α) Q E st := fun _ => h

/-- One computation after another, when the second only grows the arena. -/
theorem safe_bind {m : M β} {f : β → M α} (grows : ∀ b, Grows (f b))
    (h : safe m (fun b st' => safe (f b) Q E st') E st) : safe (m >>= f) Q E st := by
  intro room
  rw [wp_bind]
  have within : Room (m st).state ∧ ∀ b st', m st = .ok b st' → Room (f b st').state := by
    have room' : Room (andThen m f st).state := room
    unfold andThen at room'
    cases ran : m st with
    | ok b st' =>
        rw [ran] at room'
        refine ⟨lt_of_le_of_lt (grows b st') room', ?_⟩
        intro b' st'' same
        cases same
        exact room'
    | err e st' =>
        rw [ran] at room'
        exact ⟨room', fun _ _ same => by cases same⟩
    | panic message st' =>
        rw [ran] at room'
        exact ⟨room', fun _ _ same => by cases same⟩
  have first := h within.1
  unfold wp at first ⊢
  cases ran : m st with
  | ok b st' =>
      rw [ran] at first
      exact first (within.2 b st' ran)
  | err e st' =>
      rw [ran] at first
      exact first
  | panic message st' =>
      rw [ran] at first
      exact first

theorem safe_get {f : Parser → M α} (h : safe (f st) Q E st) : safe (get >>= f) Q E st := h

theorem safe_update {g : Parser → Parser} {f : Unit → M α} (h : safe (f ()) Q E (g st)) :
    safe (update g >>= f) Q E st := h

theorem safe_expect {a : β} {message : String} {f : β → M α} (h : safe (f a) Q E st) :
    safe (expect (some a) message >>= f) Q E st := h

theorem safe_mono {m : M α} {Q' : α → Parser → Prop} {E' : Parser → Prop} (h : safe m Q E st)
    (okMono : ∀ a st', Q a st' → Q' a st') (errMono : ∀ st', E st' → E' st') :
    safe m Q' E' st := fun room => wp_mono (h room) okMono errMono

/-- The outcome may be used to show what holds after it. -/
theorem safe_ran {m : M α} (h : safe m (fun a st' => m st = .ok a st' → Q a st') E st) :
    safe m Q E st := by
  intro room
  have first := h room
  unfold wp at first ⊢
  cases ran : m st with
  | ok a st' =>
      rw [ran] at first
      exact first rfl
  | err e st' =>
      rw [ran] at first
      exact first
  | panic message st' =>
      rw [ran] at first
      exact first

/-! ## Handles -/

/-- The handle is a range of the arena. -/
def Valid (st : Parser) (h : H) : Prop := h.start ≤ h.stop ∧ h.stop ≤ st.size

theorem Valid.grow {st st' : Parser} {h : H} (valid : st.Valid h) (le : st.size ≤ st'.size) :
    st'.Valid h := ⟨valid.1, le_trans valid.2 le⟩

/-- Only the arena, the context and the quads differ, and the arena has grown. -/
structure Quiet (st st' : Parser) : Prop where
  same : st' = { st with stmt := st'.stmt, ctx := st'.ctx, quads := st'.quads }
  grown : st.size ≤ st'.size

theorem Quiet.refl (st : Parser) : Quiet st st := ⟨rfl, Nat.le_refl _⟩

theorem Quiet.trans {a b c : Parser} (ab : Quiet a b) (bc : Quiet b c) : Quiet a c := by
  refine ⟨?_, le_trans ab.grown bc.grown⟩
  rw [bc.same, ab.same]

theorem safe_emitTerm {Q : H → Parser → Prop} (bytes : Bytes)
    (h : ∀ hd st', Quiet st st' → st'.Valid hd → Q hd st') : safe (emitTerm bytes) Q E st := by
  intro room
  have size : (st.stmt.append bytes).bytes.length < 2 ^ 32 := room
  have length : (st.stmt.append bytes).bytes.length = st.size + bytes.length := List.length_append
  refine h _ { st with stmt := st.stmt.append bytes } ⟨rfl, ?_⟩ ?_
  · show st.size ≤ (st.stmt.append bytes).bytes.length
    omega
  · show st.size % 2 ^ 32 ≤ (st.stmt.append bytes).bytes.length % 2 ^ 32 ∧
      (st.stmt.append bytes).bytes.length % 2 ^ 32 ≤ (st.stmt.append bytes).bytes.length
    rw [Nat.mod_eq_of_lt size, Nat.mod_eq_of_lt (show st.size < 2 ^ 32 by omega)]
    omega

theorem safe_freshBnode {Q : H → Parser → Prop}
    (h : ∀ hd st', Quiet st st' → st'.Valid hd → Q hd st') : safe freshBnode Q E st := by
  apply safe_get
  apply safe_update
  apply safe_emitTerm
  intro hd st' quiet valid
  refine h hd st' (Quiet.trans ?_ quiet) valid
  exact ⟨rfl, Nat.le_refl _⟩

theorem get_of_valid {st : Parser} {h : H} (valid : st.Valid h) :
    ∃ bytes, st.stmt.get h = some bytes := by
  unfold Arena.get
  rw [if_pos (show h.start ≤ h.stop ∧ h.stop ≤ st.stmt.bytes.length from valid)]
  exact ⟨_, rfl⟩

theorem bytesOf_of_valid {st : Parser} {h : H} (valid : st.Valid h) :
    ∃ bytes, bytesOf h st = .ok bytes st := by
  obtain ⟨bytes, found⟩ := get_of_valid valid
  refine ⟨bytes, ?_⟩
  show expect (st.stmt.get h) "range out of bounds" st = _
  rw [found]
  rfl

theorem safe_bytesOf {Q : Bytes → Parser → Prop} {hd : H} (valid : st.Valid hd)
    (h : ∀ bytes, Q bytes st) : safe (bytesOf hd) Q E st := by
  obtain ⟨bytes, found⟩ := get_of_valid valid
  apply safe_get
  rw [found]
  exact safe_of_wp (h bytes)

theorem safe_emit {Q : Unit → Parser → Prop} {s p o : H} {shorthand : Option Shorthand}
    (hs : st.Valid s) (hp : st.Valid p) (ho : st.Valid o)
    (h : ∀ st', Quiet st st' → Q () st') : safe (emit s p o shorthand) Q E st := by
  obtain ⟨sb, foundS⟩ := bytesOf_of_valid hs
  obtain ⟨pb, foundP⟩ := bytesOf_of_valid hp
  obtain ⟨ob, foundO⟩ := bytesOf_of_valid ho
  intro _
  unfold wp emit
  rw [bind_ok foundS, bind_ok foundP, bind_ok foundO]
  exact h _ ⟨rfl, Nat.le_refl _⟩

theorem safe_pnameIri {Q : String → Parser → Prop} {ns loc : String} (failed : E st)
    (h : ∀ iri, Q iri st) : safe (pnameIri ns loc) Q E st := by
  apply safe_get
  cases st.ctx.expandPrefix ns with
  | none => exact safe_err failed
  | some expansion =>
      simp only
      split
      · exact safe_pure (h _)
      · split
        · exact safe_pure (h _)
        · exact safe_err failed

/-- Nodes, IRIs and labels that a token spells. -/
theorem safe_simpleNode {Q : Option H → Parser → Prop} (t : Token) (failed : E st)
    (other : isNode t = false → Q none st)
    (node : ∀ hd st', isNode t = true → Quiet st st' → st'.Valid hd → Q (some hd) st') :
    safe (simpleNode t) Q E st := by
  cases t with
  | iri text =>
      apply safe_get
      apply safe_liftErr
      · intro abs _
        refine safe_bind (fun _ => grows_pure _) ?_
        apply safe_emitTerm
        intro hd st' quiet valid
        exact safe_pure (node hd st' rfl quiet valid)
      · exact failed
  | pname ns loc =>
      refine safe_bind (fun _ => grows_bind (grows_emitTerm _) fun _ => grows_pure _) ?_
      apply safe_pnameIri failed
      intro iri
      refine safe_bind (fun _ => grows_pure _) ?_
      apply safe_emitTerm
      intro hd st' quiet valid
      exact safe_pure (node hd st' rfl quiet valid)
  | blankLabel text =>
      refine safe_bind (fun _ => grows_pure _) ?_
      apply safe_get
      apply safe_update
      apply safe_emitTerm
      intro hd st' quiet valid
      have labelled : Quiet st { st with ctx := (st.ctx.internalLabel text).2 } :=
        ⟨rfl, Nat.le_refl _⟩
      exact safe_pure (node hd st' rfl (labelled.trans quiet) valid)
  | _ => exact safe_pure (other rfl)

theorem safe_expectNode {Q : H → Parser → Prop} {t : Token} (isNode : isNode t = true)
    (failed : E st) (node : ∀ hd st', Quiet st st' → st'.Valid hd → Q hd st') :
    safe (expectNode t) Q E st := by
  refine safe_bind (fun _ => grows_expect _ _) ?_
  apply safe_simpleNode t failed
  · intro other
    rw [isNode] at other
    cases other
  · intro hd st' _ quiet valid
    exact safe_of_wp (node hd st' quiet valid)

/-! ## Triple terms -/

/-- Only what building a triple term changes differs. -/
structure Builds (st st' : Parser) : Prop where
  same : st' = { st with
    stmt := st'.stmt
    ctx := st'.ctx
    quads := st'.quads
    ttDepths := st'.ttDepths }
  grown : st.size ≤ st'.size

theorem Quiet.builds {st st' : Parser} (quiet : Quiet st st') : Builds st st' := by
  refine ⟨?_, quiet.grown⟩
  rw [quiet.same]

theorem Builds.trans {a b c : Parser} (ab : Builds a b) (bc : Builds b c) : Builds a c := by
  refine ⟨?_, le_trans ab.grown bc.grown⟩
  rw [bc.same, ab.same]

theorem safe_buildTt {Q : H → Parser → Prop} {s p o : H} (hs : st.Valid s) (hp : st.Valid p)
    (ho : st.Valid o) (deep : Concise.maxTripleTermDepth < st.tripleDepth s o → E st)
    (h : ∀ hd st', Builds st st' → st'.Valid hd → Q hd st') : safe (buildTt s p o) Q E st := by
  apply safe_get
  split
  · rename_i limit
    exact safe_err (deep limit)
  · obtain ⟨sb, foundS⟩ := bytesOf_of_valid hs
    obtain ⟨pb, foundP⟩ := bytesOf_of_valid hp
    obtain ⟨ob, foundO⟩ := bytesOf_of_valid ho
    have read : writeTt s p o (st.tripleDepth s o) st =
        (emitTerm (Concise.encodeTripleTerm sb pb ob) >>= fun h => do
          update fun st' => { st' with ttDepths := (h, st.tripleDepth s o) :: st'.ttDepths }
          return h) st := by
      rw [writeTt, bind_ok foundS, bind_ok foundP, bind_ok foundO]
    have written : safe (emitTerm (Concise.encodeTripleTerm sb pb ob) >>= fun h => do
        update fun st' => { st' with ttDepths := (h, st.tripleDepth s o) :: st'.ttDepths }
        return h) Q E st := by
      refine safe_bind (fun _ => grows_bind (grows_update fun _ => rfl) fun _ => grows_pure _) ?_
      apply safe_emitTerm
      intro hd st' quiet valid
      apply safe_update
      refine safe_pure (h hd _ ⟨?_, quiet.grown⟩ valid)
      have same := quiet.same
      rw [same]
    unfold safe wp at written ⊢
    rw [read]
    exact written

/-- Whether the triple term of the annotation target exists or may be built. -/
def AnnotationFits (st : Parser) : Prop :=
  st.curTt.isSome = true ∨ ∀ s p o, st.last = some (s, p, o) →
    st.tripleDepth s o ≤ Concise.maxTripleTermDepth

/-- What reifying the annotation target changes besides: its triple term is kept. -/
structure Reified (st st' : Parser) : Prop where
  same : st' = { st with
    stmt := st'.stmt
    ctx := st'.ctx
    quads := st'.quads
    ttDepths := st'.ttDepths
    curTt := st'.curTt }
  grown : st.size ≤ st'.size
  tt : ∀ h ∈ st'.curTt, st'.Valid h

theorem safe_reify {Q : Unit → Parser → Prop} {r : H} (hr : st.Valid r)
    (hlast : ∀ s p o, st.last = some (s, p, o) → st.Valid s ∧ st.Valid p ∧ st.Valid o)
    (some_ : st.last.isSome = true) (htt : ∀ h ∈ st.curTt, st.Valid h)
    (failed : ¬ st.AnnotationFits → E st)
    (h : ∀ st', Reified st st' → Q () st') : safe (reify r) Q E st := by
  have target : safe annotationTt (fun tt st' => st'.Valid tt ∧ Reified st st') E st := by
    apply safe_get
    cases known : st.curTt with
    | some tt =>
        have valid : st.Valid tt := htt tt known
        refine safe_pure ⟨valid, rfl, Nat.le_refl _, ?_⟩
        intro h mem
        exact htt h mem
    | none =>
        cases asserted : st.last with
        | none =>
            rw [asserted] at some_
            cases some_
        | some triple =>
            obtain ⟨s, p, o⟩ := triple
            obtain ⟨hs, hp, ho⟩ := hlast s p o asserted
            refine safe_bind (fun _ => grows_bind (grows_update fun _ => rfl) fun _ =>
              grows_pure _) ?_
            apply safe_buildTt hs hp ho
            · intro deep
              apply failed
              rintro (present | fits)
              · rw [known] at present
                cases present
              · exact absurd (fits s p o asserted) (by omega)
            · intro hd st' builds valid
              apply safe_update
              refine safe_pure ⟨valid, ?_, builds.grown, ?_⟩
              · have same := builds.same
                rw [same]
              · intro h mem
                cases mem
                exact valid
  refine safe_bind (fun _ => grows_bind (grows_wellKnown _) fun _ => grows_emit _ _ _ _) ?_
  apply safe_mono target
  · intro tt st₁ found
    obtain ⟨valid, reified⟩ := found
    refine safe_bind (fun _ => grows_emit _ _ _ _) ?_
    apply safe_emitTerm
    intro reifies st₂ quiet validR
    apply safe_emit (hr.grow (le_trans reified.grown quiet.grown)) validR (valid.grow quiet.grown)
    intro st₃ quiet'
    have total := quiet.trans quiet'
    apply h
    refine ⟨?_, le_trans reified.grown total.grown, ?_⟩
    · rw [total.same, reified.same]
    · intro hd mem
      have sameTt : st₃.curTt = st₁.curTt := by rw [total.same]
      rw [sameTt] at mem
      exact (reified.tt hd mem).grow total.grown
  · exact fun _ e => e

theorem safe_reifyExpected {Q : Unit → Parser → Prop} {r : H} (hr : st.Valid r)
    (hlast : ∀ s p o, st.last = some (s, p, o) → st.Valid s ∧ st.Valid p ∧ st.Valid o)
    (some_ : st.last.isSome = true) (htt : ∀ h ∈ st.curTt, st.Valid h) (fits : st.AnnotationFits)
    (h : ∀ st', Reified st st' → Q () st') : safe (reifyExpected r) Q E st := by
  have reified : safe (reify r) Q (fun _ => False) st :=
    safe_reify hr hlast some_ htt (fun not => not fits) h
  intro room
  have ran : Room (reify r st).state := by
    unfold reifyExpected at room
    cases outcome : reify r st with
    | ok a st' =>
        rw [outcome] at room
        exact room
    | err e st' =>
        rw [outcome] at room
        exact room
    | panic message st' =>
        rw [outcome] at room
        exact room
  have done := reified ran
  unfold wp at done ⊢
  unfold reifyExpected
  cases outcome : reify r st with
  | ok a st' =>
      rw [outcome] at done
      exact done
  | err e st' =>
      rw [outcome] at done
      exact done.elim
  | panic message st' =>
      rw [outcome] at done
      exact done

end Parser

end Graphy.Turtle
