import Graphy.Turtle.Proofs.Highlight

/-!
# What highlighting shows

The spans are the tokens that the lexer reads, in the whole text and not only up to the first
error; the runs that it refuses; and an IRI or a string that the text leaves open.
-/

namespace Graphy.Turtle

/-! ## What the lexer reads -/

/-- What the lexer makes of the next word of a text. -/
inductive Item where
  | token (t : Token) (start stop : Nat)
  /-- Refused for the byte at `bad`. -/
  | refused (start bad : Nat)
  /-- An IRI or a string that the text ends in. -/
  | leftOpen (kind : HlKind) (start : Nat) (message : String)

/-- The lexer reads a text to its end.  Behind a bad byte it goes on at the next boundary of
characters, and a fault at the first byte of an IRI or a string ends the text. -/
inductive LexesAs : Cursor → List Item → Prop where
  | eof {c c' : Cursor} {p : Position} (read : c.next true false = (.eof p, c')) : LexesAs c []
  | token {c c' : Cursor} {p : Position} {t : Token} {items : List Item}
      (read : c.next true false = (.token p t, c')) (more : LexesAs c' items) :
      LexesAs c (.token t p.offset c'.position.offset :: items)
  | refused {c c' : Cursor} {e : ParseError} {items : List Item}
      (read : c.next true false = (.error e, c'))
      (closed : e.position.offset = c'.position.offset → c'.rest.head?.bind provisional = none)
      (more : LexesAs (c'.recoverPast e.position.offset) items) :
      LexesAs c (.refused c'.position.offset e.position.offset :: items)
  | leftOpen {c c' : Cursor} {e : ParseError} {kind : HlKind}
      (read : c.next true false = (.error e, c'))
      (first : e.position.offset = c'.position.offset)
      (opener : c'.rest.head?.bind provisional = some kind) :
      LexesAs c [.leftOpen kind c'.position.offset e.message]

/-- By induction on the bytes left. -/
theorem exists_lexesAs (c : Cursor) : ∃ items, LexesAs c items := by
  induction left : c.rest.length using Nat.strong_induction_on generalizing c with
  | _ n ih =>
  subst left
  rcases read : c.next true false with ⟨lexed, c'⟩
  obtain ⟨r, -, same, steps⟩ := c.nextWhole_steps
  cases same.symm.trans read
  cases steps with
  | eof blank => exact ⟨[], .eof read⟩
  | @token g w p t c₁ _ skipped blank starts moves some_ colon =>
      obtain ⟨items, more⟩ := ih _ (Cursor.next_token_lt read) c' rfl
      exact ⟨_, .token read more⟩
  | @error g e _ skipped blank more low high =>
      have fewer : (c'.recoverPast e.position.offset).rest.length < c.rest.length :=
        Nat.lt_of_lt_of_le (Cursor.length_recoverPast_lt more) (Cursor.next_le read)
      obtain ⟨items, later⟩ := ih _ fewer (c'.recoverPast e.position.offset) rfl
      by_cases first : e.position.offset = c'.position.offset
      · cases opener : c'.rest.head?.bind provisional with
        | some kind => exact ⟨_, .leftOpen read first opener⟩
        | none => exact ⟨_, .refused read (fun _ => opener) later⟩
      · exact ⟨_, .refused read (fun same => absurd same first) later⟩

/-! ### Faults at the first byte -/

theorem le_of_unescape {escape : List Char → Except String (Char × Nat)} {off at_ : Nat}
    {s : List Char} {message : String} (h : unescape escape off s = .error at_ message) :
    off ≤ at_ := by
  fun_induction unescape escape off s with
  | case1 => cases h
  | case2 off s message' failed =>
      cases h
      exact Nat.le_refl _
  | case3 off s d used found ih =>
      cases rest : unescape escape (off + used) (s.drop (used - 1)) with
      | needMore => rw [rest] at h; cases h
      | done text => rw [rest] at h; cases h
      | error off' message' =>
          rw [rest] at h
          cases h
          exact Nat.le_trans (Nat.le_add_right _ _) (ih rest)
  | case4 off c s plain ih =>
      cases rest : unescape escape (off + c.utf8Size) s with
      | needMore => rw [rest] at h; cases h
      | done text => rw [rest] at h; cases h
      | error off' message' =>
          rw [rest] at h
          cases h
          exact Nat.le_trans (Nat.le_add_right _ _) (ih rest)

theorem lexIriref_error_zero {bytes : Bytes} {message : String}
    (h : lexIriref true false bytes = .error 0 message) : message = "unterminated IRI" := by
  unfold lexIriref at h
  split at h
  · cases h
    rfl
  · simp only at h
    split at h
    · rename_i i _
      have := (Scan.error.inj h).1
      omega
    · split at h
      · cases h
      · rename_i s _
        cases text : unescape iriEscape 1 s.toList with
        | needMore => rw [text] at h; cases h
        | done text' => rw [text] at h; cases h
        | error off' message' =>
            rw [text] at h
            cases h
            have := le_of_unescape text
            omega

theorem lexLt_error_zero {bytes : Bytes} {message : String}
    (h : lexLt true false bytes = .error 0 message) : message = "unterminated IRI" := by
  unfold lexLt at h
  split at h
  · exact lexIriref_error_zero h
  · split at h
    · split at h
      · cases h
      · split at h <;> cases h
    · exact lexIriref_error_zero h

theorem scanShort_error_zero {q : UInt8} {k : Nat} {escaped : Bool} {bytes : Bytes}
    {message : String} (pos : 0 < k) (h : scanShort true false q k escaped bytes = .error 0 message) :
    message = "unterminated string" := by
  fun_induction scanShort true false q k escaped bytes with
  | case1 => cases h; rfl
  | case2 => cases h
  | case3 =>
      have := (Scan.error.inj h).1
      omega
  | case4 k escaped h b rest ih => exact ih (by omega) ‹_›
  | case5 =>
      have := (Scan.error.inj h).1
      omega
  | case6 k escaped b rest h1 h2 h3 ih => exact ih (by omega) ‹_›

theorem scanLong_error_zero {q : UInt8} {k : Nat} {bytes : Bytes} {message : String} (pos : 0 < k)
    (h : scanLong true q k bytes = .error 0 message) : message = "unterminated long string" := by
  fun_induction scanLong true q k bytes
  case case1 =>
    cases h
    rfl
  case case2 =>
    have := (Scan.error.inj h).1
    omega
  case case3 ih => exact ih (by omega) h
  case case4 more => exact Bool.noConfusion more.2
  case case5 long _ more =>
    rw [if_neg more, if_pos long] at h
    have := (Scan.error.inj h).1
    omega
  case case6 short three _ more =>
    rw [if_neg more, if_neg short, if_pos three] at h
    cases h
  case case7 short other _ more ih =>
    rw [if_neg more, if_neg short, if_neg other] at h
    exact ih (by omega) h
  case case8 ih => exact ih (by omega) h

theorem finishStringContent_error {off at_ : Nat} {content : Bytes} {message : String}
    (h : finishStringContent off content = .error at_ message) : off ≤ at_ := by
  unfold finishStringContent at h
  split at h
  · cases h
    exact Nat.le_refl _
  · rename_i s _
    cases text : unescape stringEscape off s.toList with
    | needMore => rw [text] at h; cases h
    | done text' => rw [text] at h; cases h
    | error off' message' =>
        rw [text] at h
        cases h
        exact le_of_unescape text

theorem lexString_error_zero {q : UInt8} {bytes : Bytes} {message : String}
    (h : lexString true false q bytes = .error 0 message) :
    message ∈ ["unterminated string", "unterminated long string"] := by
  have short : lexShortString true false q bytes = .error 0 message →
      message = "unterminated string" := by
    intro h
    unfold lexShortString at h
    cases scanned : scanShort true false q 1 false (bytes.drop 1) with
    | needMore =>
        rw [scanned] at h
        cases h
    | error off message' =>
        rw [scanned] at h
        cases h
        exact scanShort_error_zero (by omega) scanned
    | done r =>
        obtain ⟨ce, escaped⟩ := r
        rw [scanned] at h
        have finish : ∀ {at_ : Nat} {message : String},
            (finishStringContent 1 ((bytes.drop 1).take (ce - 1)) >>= fun text =>
              (pure (ce + 1, Token.string text false (q == 0x27)) : Scan (Nat × Token))) =
                .error at_ message → 1 ≤ at_ := by
          intro at_ message failed
          cases text : finishStringContent 1 ((bytes.drop 1).take (ce - 1)) with
          | needMore =>
              rw [text] at failed
              cases failed
          | done text' =>
              rw [text] at failed
              cases failed
          | error off message' =>
              rw [text] at failed
              cases failed
              exact finishStringContent_error text
        simp only [Scan.done_bind] at h
        split at h
        · exact absurd (finish h) (by omega)
        · split at h
          · exact absurd (finish h) (by omega)
          · have := (Scan.error.inj h).1
            omega
  have long : lexLongString true q bytes = .error 0 message →
      message = "unterminated long string" := by
    intro h
    unfold lexLongString at h
    cases scanned : scanLong true q 3 (bytes.drop 3) with
    | needMore =>
        rw [scanned] at h
        cases h
    | error off message' =>
        rw [scanned] at h
        cases h
        exact scanLong_error_zero (by omega) scanned
    | done ce =>
        rw [scanned] at h
        simp only [Scan.done_bind] at h
        cases text : finishStringContent 3 ((bytes.drop 3).take (ce - 3)) with
        | needMore =>
            rw [text] at h
            cases h
        | done text' =>
            rw [text] at h
            cases h
        | error off message' =>
            rw [text] at h
            cases h
            exact absurd (finishStringContent_error text) (by omega)
  unfold lexString at h
  split at h
  · split at h
    · split at h
      · simp [long h]
      · cases h
    · simp [short h]
  · split at h
    · cases h
    · simp [short h]
  · cases h
    simp

/-- What the lexer says of an IRI or a string that the text ends in. -/
def unterminated : HlKind → List String
  | .iri => ["unterminated IRI"]
  | .string => ["unterminated string", "unterminated long string"]
  | _ => []

/-- A fault at the first byte of an IRI or a string: the text ends in it. -/
theorem unterminated_of_error {bytes : Bytes} {kind : HlKind} {message : String}
    (opener : bytes.head?.bind provisional = some kind)
    (h : lexToken true false bytes = .error 0 message) : message ∈ unterminated kind := by
  cases bytes with
  | nil => cases opener
  | cons b rest =>
      change provisional b = some kind at opener
      unfold provisional at opener
      split at opener
      · rename_i lt
        cases opener
        subst lt
        have read : lexToken true false (0x3C :: rest) = lexLt true false (0x3C :: rest) := rfl
        rw [read] at h
        simp [unterminated, lexLt_error_zero h]
      · split at opener
        · rename_i quote
          cases opener
          have read : lexToken true false (b :: rest) = lexString true false b (b :: rest) := by
            rcases quote with rfl | rfl <;> rfl
          rw [read] at h
          exact lexString_error_zero h
        · cases opener

/-! ### Items and spans -/

/-- How the spans show what the lexer reads from `pos` on; `opened` begins a run of errors that is
open there. -/
structure Shows (src : Bytes) (pos : Nat) (opened : Option Nat) (items : List Item)
    (spans : List HlToken) : Prop where
  token : ∀ t start stop, .token t start stop ∈ items →
    ∃ pieces, Pieces src t start stop pieces ∧ pieces <:+: spans
  refused : ∀ start bad, .refused start bad ∈ items → ∃ s ∈ spans, s.kind = .error ∧
    s.start.toNat ≤ start ∧ start < s.stop.toNat ∧ min (bad + 1) src.length ≤ s.stop.toNat
  leftOpen : ∀ kind start message, .leftOpen kind start message ∈ items →
    message ∈ unterminated kind ∧ .new start src.length kind ∈ spans
  run : ∀ first, opened = some first → ∃ s ∈ spans, s.kind = .error ∧
    s.start.toNat = first ∧ pos ≤ s.stop.toNat
  only : ∀ s ∈ spans,
    (∃ t start stop pieces, .token t start stop ∈ items ∧ Pieces src t start stop pieces ∧
      s ∈ pieces) ∨
    (∃ kind start message, .leftOpen kind start message ∈ items ∧
      s = .new start src.length kind) ∨
    (s.kind = .error ∧ ((∃ bad, .refused s.start.toNat bad ∈ items) ∨
      opened = some s.start.toNat))

/-- The run of errors that ends in front of a word. -/
theorem mem_flushErr {opened : Option Nat} {upto : Nat} {s : HlToken} (small : upto < 2 ^ 32)
    (mem : s ∈ flushErr opened upto) : s.kind = .error ∧ opened = some s.start.toNat := by
  cases opened with
  | none => cases mem
  | some first =>
      unfold flushErr at mem
      simp only at mem
      split at mem
      · rename_i lt
        rw [List.mem_singleton] at mem
        subst mem
        exact ⟨rfl, congrArg some (congrArg Prod.fst (span_new .error (Nat.le_of_lt lt) small)).symm⟩
      · cases mem

theorem flushErr_run {first pos upto : Nat} (before : first < pos) (le : pos ≤ upto)
    (small : upto < 2 ^ 32) : ∃ s ∈ flushErr (some first) upto, s.kind = .error ∧
      s.start.toNat = first ∧ pos ≤ s.stop.toNat := by
  have lt : first < upto := Nat.lt_of_lt_of_le before le
  have span := span_new .error (Nat.le_of_lt lt) small
  refine ⟨.new first upto .error, ?_, rfl, congrArg Prod.fst span, ?_⟩
  · unfold flushErr
    simp only
    rw [if_pos lt]
    exact List.mem_singleton_self _
  · exact Nat.le_trans le (Nat.le_of_eq (congrArg Prod.snd span).symm)

/-- Nothing is left to read. -/
theorem shows_eof {src : Bytes} {pos : Nat} {opened : Option Nat} (small : src.length < 2 ^ 32)
    (le : pos ≤ src.length) (before : ∀ first, opened = some first → first < pos) :
    Shows src pos opened [] (flushErr opened src.length) where
  token := fun _ _ _ mem => nomatch mem
  refused := fun _ _ mem => nomatch mem
  leftOpen := fun _ _ _ mem => nomatch mem
  run := by
    rintro first rfl
    exact flushErr_run (before first rfl) le small
  only := fun s mem =>
    .inr (.inr ((mem_flushErr small mem).imp id .inr))

/-- An IRI or a string that the text ends in. -/
theorem shows_leftOpen {src : Bytes} {pos start : Nat} {opened : Option Nat} {kind : HlKind}
    {message : String} (small : src.length < 2 ^ 32) (le : pos ≤ start)
    (inside : start ≤ src.length) (before : ∀ first, opened = some first → first < pos)
    (open_ : message ∈ unterminated kind) :
    Shows src pos opened [.leftOpen kind start message]
      (flushErr opened start ++ [.new start src.length kind]) where
  token := fun _ _ _ mem => nomatch List.mem_singleton.mp mem
  refused := fun _ _ mem => nomatch List.mem_singleton.mp mem
  leftOpen := by
    intro kind' start' message' mem
    cases List.mem_singleton.mp mem
    exact ⟨open_, List.mem_append_right _ (List.mem_singleton_self _)⟩
  run := by
    rintro first rfl
    obtain ⟨s, mem, rest⟩ := flushErr_run (before first rfl) le (by omega)
    exact ⟨s, List.mem_append_left _ mem, rest⟩
  only := by
    intro s mem
    rcases List.mem_append.mp mem with front | last
    · exact .inr (.inr ((mem_flushErr (by omega) front).imp id .inr))
    · exact .inr (.inl ⟨kind, start, message, List.mem_singleton_self _, List.mem_singleton.mp last⟩)

/-- A token in front of what is read. -/
theorem shows_token {src : Bytes} {pos next start stop : Nat} {opened : Option Nat} {t : Token}
    {items : List Item} {pieces rest : List HlToken} (small : src.length < 2 ^ 32)
    (le : pos ≤ start) (inside : start ≤ src.length)
    (before : ∀ first, opened = some first → first < pos)
    (parts : Pieces src t start stop pieces) (later : Shows src next none items rest) :
    Shows src pos opened (.token t start stop :: items)
      (flushErr opened start ++ (pieces ++ rest)) where
  token := by
    intro t' start' stop' mem
    rcases List.mem_cons.mp mem with same | mem
    · cases same
      exact ⟨pieces, parts, flushErr opened start, rest, by rw [List.append_assoc]⟩
    · obtain ⟨pieces', parts', inRest⟩ := later.token t' start' stop' mem
      exact ⟨pieces', parts', inRest.trans
        ⟨flushErr opened start ++ pieces, [], by rw [List.append_nil, List.append_assoc]⟩⟩
  refused := by
    intro start' bad mem
    rcases List.mem_cons.mp mem with same | mem
    · cases same
    · obtain ⟨s, inRest, covers⟩ := later.refused start' bad mem
      exact ⟨s, List.mem_append_right _ (List.mem_append_right _ inRest), covers⟩
  leftOpen := by
    intro kind start' message mem
    rcases List.mem_cons.mp mem with same | mem
    · cases same
    · obtain ⟨open_, inRest⟩ := later.leftOpen kind start' message mem
      exact ⟨open_, List.mem_append_right _ (List.mem_append_right _ inRest)⟩
  run := by
    rintro first rfl
    obtain ⟨s, mem, covers⟩ := flushErr_run (before first rfl) le (by omega)
    exact ⟨s, List.mem_append_left _ mem, covers⟩
  only := by
    intro s mem
    rcases List.mem_append.mp mem with front | mem
    · exact .inr (.inr ((mem_flushErr (by omega) front).imp id .inr))
    · rcases List.mem_append.mp mem with piece | inRest
      · exact .inl ⟨t, start, stop, pieces, List.mem_cons_self .., parts, piece⟩
      · rcases later.only s inRest with ⟨t', a, b, ps, mem, parts', piece⟩ |
          ⟨kind, a, message, mem, same⟩ | ⟨error, ⟨bad, mem⟩ | none_⟩
        · exact .inl ⟨t', a, b, ps, List.mem_cons_of_mem _ mem, parts', piece⟩
        · exact .inr (.inl ⟨kind, a, message, List.mem_cons_of_mem _ mem, same⟩)
        · exact .inr (.inr ⟨error, .inl ⟨bad, List.mem_cons_of_mem _ mem⟩⟩)
        · cases none_

/-- A refused word in front of what is read: the run of errors begins with it or goes on. -/
theorem shows_refused {src : Bytes} {pos next start bad : Nat} {opened : Option Nat}
    {items : List Item} {spans : List HlToken} (le : pos ≤ start) (behind : start < next)
    (reached : min (bad + 1) src.length ≤ next)
    (before : ∀ first, opened = some first → first < pos)
    (later : Shows src next (some (opened.getD start)) items spans) :
    Shows src pos opened (.refused start bad :: items) spans where
  token := by
    intro t a b mem
    rcases List.mem_cons.mp mem with same | mem
    · cases same
    · exact later.token t a b mem
  refused := by
    intro start' bad' mem
    rcases List.mem_cons.mp mem with same | mem
    · cases same
      obtain ⟨s, inSpans, error, first, stops⟩ := later.run _ rfl
      refine ⟨s, inSpans, error, ?_, by omega, by omega⟩
      rw [first]
      cases opened with
      | none => exact Nat.le_refl _
      | some first' => exact Nat.le_of_lt (Nat.lt_of_lt_of_le (before first' rfl) le)
    · exact later.refused start' bad' mem
  leftOpen := by
    intro kind a message mem
    rcases List.mem_cons.mp mem with same | mem
    · cases same
    · exact later.leftOpen kind a message mem
  run := by
    rintro first rfl
    obtain ⟨s, inSpans, error, first', stops⟩ := later.run _ rfl
    exact ⟨s, inSpans, error, first', by omega⟩
  only := by
    intro s inSpans
    rcases later.only s inSpans with ⟨t, a, b, ps, mem, parts, piece⟩ |
      ⟨kind, a, message, mem, same⟩ | ⟨error, ⟨bad', mem⟩ | first⟩
    · exact .inl ⟨t, a, b, ps, List.mem_cons_of_mem _ mem, parts, piece⟩
    · exact .inr (.inl ⟨kind, a, message, List.mem_cons_of_mem _ mem, same⟩)
    · exact .inr (.inr ⟨error, .inl ⟨bad', List.mem_cons_of_mem _ mem⟩⟩)
    · refine .inr (.inr ⟨error, ?_⟩)
      cases opened with
      | none =>
          have same : start = s.start.toNat := Option.some.inj first
          exact .inl ⟨bad, same ▸ List.mem_cons_self ..⟩
      | some first' => exact .inr first

theorem head_of_stands {src : Bytes} {c : Cursor} (stands : Stands src c) :
    src[c.position.offset]? = c.rest.head? := by
  rw [← stands.2, List.head?_drop]

/-- By induction on what the lexer reads. -/
theorem tokenizeFrom_shows {src : Bytes} (small : src.length < 2 ^ 32) {c : Cursor}
    {items : List Item} (lexes : LexesAs c items) (stands : Stands src c) {opened : Option Nat}
    (before : ∀ first, opened = some first → first < c.position.offset) :
    ∃ spans, tokenizeFrom src c opened = some spans ∧
      Shows src c.position.offset opened items spans := by
  induction lexes generalizing opened with
  | @eof c c' p read =>
      obtain ⟨r, whole, same, -⟩ := c.nextWhole_steps
      cases read.symm.trans same
      exact ⟨_, tokenizeFrom_eof whole, shows_eof small stands.1 before⟩
  | @token c c' p t items read more ih =>
      obtain ⟨r, whole, same, steps⟩ := c.nextWhole_steps
      cases read.symm.trans same
      cases steps with
      | @token g w _ _ c₁ _ skipped blank starts moves some_ colon =>
          have stands₁ := stands.moves skipped
          have closed : ∀ first, none = some first → first < c'.position.offset :=
            fun _ none_ => nomatch none_
          obtain ⟨rest, later, shows_⟩ := ih (stands₁.moves moves) closed
          obtain ⟨pieces, pushed, parts⟩ := push_pieces (stands₁.slice moves) colon
          rw [← moves.2, ← starts] at pushed parts
          refine ⟨_, tokenizeFrom_token whole pushed later, ?_⟩
          have le : c.position.offset ≤ p.offset := by
            rw [starts, skipped.2]
            exact Nat.le_add_right _ _
          exact shows_token small le (starts ▸ stands₁.1) before parts shows_
  | @refused c c' e items read closed more ih =>
      obtain ⟨r, whole, same, steps⟩ := c.nextWhole_steps
      cases read.symm.trans same
      cases steps with
      | @error g _ _ skipped blank more low high =>
          have stands' := stands.moves skipped
          have le : c.position.offset ≤ c'.position.offset := by
            rw [skipped.2]
            exact Nat.le_add_right _ _
          have no : (if e.position.offset = c'.position.offset then
              src[c'.position.offset]?.bind provisional else none) = none := by
            split
            · rename_i first
              rw [head_of_stands stands']
              exact closed first
            · rfl
          obtain ⟨w, some_, moves⟩ := Cursor.recoverPast_moves more e.position.offset
          have wide := List.length_pos_iff.mpr some_
          have lt : c'.position.offset < (c'.recoverPast e.position.offset).position.offset := by
            rw [moves.2]
            omega
          have opens : ∀ first, some (opened.getD c'.position.offset) = some first →
              first < (c'.recoverPast e.position.offset).position.offset := by
            rintro _ ⟨⟩
            cases opened with
            | none => exact lt
            | some first => exact Nat.lt_of_lt_of_le (before first rfl) (by omega)
          obtain ⟨spans, later, shows_⟩ := ih (stands'.moves moves) opens
          refine ⟨spans, ?_, shows_refused le lt ?_ before shows_⟩
          · rw [tokenizeFrom_recover whole no, Nat.min_eq_left low]
            exact later
          · exact Cursor.le_recoverPast stands'.1 stands'.2 e.position.offset
  | @leftOpen c c' e kind read first opener =>
      obtain ⟨r, whole, same, steps⟩ := c.nextWhole_steps
      cases read.symm.trans same
      cases steps with
      | @error g _ _ skipped blank more low high =>
          have stands' := stands.moves skipped
          have le : c.position.offset ≤ c'.position.offset := by
            rw [skipped.2]
            exact Nat.le_add_right _ _
          obtain ⟨b, found, provides⟩ := Option.bind_eq_some_iff.mp opener
          rw [← head_of_stands stands'] at found
          refine ⟨_, tokenizeFrom_open whole first found provides, ?_⟩
          refine shows_leftOpen small le stands'.1 before ?_
          obtain ⟨-, -, off, refused, place⟩ := Cursor.next_error read
          rw [place, advance_offset] at first
          have none_ : c'.rest.take off = [] := List.eq_nil_of_length_eq_zero (by omega)
          have zero : off = 0 := (List.take_eq_nil_iff.mp none_).resolve_right more
          subst zero
          exact unterminated_of_error opener refused

/-- Highlighting partitions the text: it ends without a panic, its spans are in order and leave
out only whitespace and comments, and they show the tokens that the lexer reads, what it refuses
and a literal that is left open. -/
theorem tokenize_partitions (src : Bytes) (small : src.length < 2 ^ 32) :
    ∃ spans items, tokenize src = some spans ∧ Partitions src spans ∧
      LexesAs ⟨src, ⟨0, 1, 1⟩⟩ items ∧ Shows src 0 none items spans := by
  have stands : Stands src ⟨src, ⟨0, 1, 1⟩⟩ := ⟨Nat.zero_le _, rfl⟩
  have closed : ∀ s : Nat, none = some s → s < (⟨src, ⟨0, 1, 1⟩⟩ : Cursor).position.offset :=
    fun _ h => nomatch h
  obtain ⟨spans, done, laid⟩ := tokenizeFrom_laid small stands closed
  obtain ⟨items, lexes⟩ := exists_lexesAs ⟨src, ⟨0, 1, 1⟩⟩
  obtain ⟨spans', done', shows_⟩ := tokenizeFrom_shows small lexes stands closed
  cases done.symm.trans done'
  exact ⟨spans, items, done, partitions_of_laid laid, lexes, shows_⟩

/-- A name, a bad byte and an IRI left open. -/
theorem tokenize_partitions_sample :
    ∃ spans items, tokenize (strBytes "a:b % <c") = some spans ∧
      Partitions (strBytes "a:b % <c") spans ∧
      LexesAs ⟨strBytes "a:b % <c", ⟨0, 1, 1⟩⟩ items ∧
      Shows (strBytes "a:b % <c") 0 none items spans :=
  tokenize_partitions (strBytes "a:b % <c") (by decide)

end Graphy.Turtle
