import Graphy.Misc.Layout
import Graphy.Turtle.Proofs.Spans

/-!
# Highlighting partitions the text

Whatever the bytes are, the highlighter ends, and its spans cut the text into words with
nothing but whitespace and comments between them.
-/

namespace Graphy.Turtle

/-! ## Gaps -/

/-- Whitespace and comments; only the gap that ends the text may end inside a comment. -/
inductive Blank : Bool → Bytes → Prop where
  | nil (last : Bool) : Blank last []
  | space {last : Bool} {b : UInt8} {g : Bytes} (white : Cursor.isSpace b = true)
      (more : Blank last g) : Blank last (b :: g)
  | comment {last : Bool} {body g : Bytes} (line : 0x0A ∉ body) (more : Blank last g) :
      Blank last (0x23 :: (body ++ 0x0A :: g))
  | unended {body : Bytes} (line : 0x0A ∉ body) : Blank true (0x23 :: body)

namespace Blank

theorem append {last : Bool} {g h : Bytes} (first : Blank false g) (next : Blank last h) :
    Blank last (g ++ h) := by
  generalize closed : false = l at first
  induction first with
  | nil => exact next
  | space white more ih => exact .space white (ih closed)
  | @comment l body g line more ih =>
      rw [List.cons_append, List.append_assoc, List.cons_append]
      exact .comment line (ih closed)
  | unended => cases closed

theorem spaces {last : Bool} {g h : Bytes} (white : ∀ b ∈ g, Cursor.isSpace b = true)
    (next : Blank last h) : Blank last (g ++ h) := by
  induction g with
  | nil => exact next
  | cons b g ih =>
      exact .space (white b (List.mem_cons_self ..)) (ih fun c mem => white c (List.mem_cons_of_mem b mem))

theorem last {l : Bool} {g : Bytes} (blank : Blank l g) : Blank true g := by
  induction blank with
  | nil => exact .nil true
  | space white more ih => exact .space white ih
  | comment line more ih => exact .comment line ih
  | unended line => exact .unended line

/-- A byte of a gap is whitespace, or a comment that no line end closes stands before it. -/
theorem byte {l : Bool} {g : Bytes} (blank : Blank l g) {i : Nat} {b : UInt8}
    (found : g[i]? = some b) : Cursor.isSpace b = true ∨
      ∃ j ≤ i, g[j]? = some 0x23 ∧ ∀ k, j ≤ k → k ≤ i → g[k]? ≠ some 0x0A := by
  induction blank generalizing i with
  | nil => simp at found
  | @space l c g white more ih =>
      cases i with
      | zero =>
          cases found
          exact .inl white
      | succ i =>
          rw [List.getElem?_cons_succ] at found
          refine (ih found).imp_right ?_
          rintro ⟨j, le, opens, line⟩
          refine ⟨j + 1, by omega, by rwa [List.getElem?_cons_succ], ?_⟩
          intro k low high
          obtain ⟨k, rfl⟩ := Nat.exists_eq_add_of_le' (Nat.le_trans (by omega) low : 1 ≤ k)
          rw [List.getElem?_cons_succ]
          exact line k (by omega) (by omega)
  | @comment l body g line more ih =>
      rcases Nat.lt_trichotomy i (body.length + 1) with inside | ending | behind
      · refine .inr ⟨0, Nat.zero_le i, rfl, ?_⟩
        intro k _ high
        cases k with
        | zero => simp
        | succ k =>
            rw [List.getElem?_cons_succ, List.getElem?_append_left (by omega)]
            exact fun newline => line (List.mem_of_getElem? newline)
      · subst ending
        rw [List.getElem?_cons_succ, List.getElem?_append_right (Nat.le_refl _), Nat.sub_self] at found
        cases found
        exact .inl (by decide)
      · obtain ⟨n, rfl⟩ := Nat.exists_eq_add_of_le (show body.length + 2 ≤ i by omega)
        have tail : ∀ n, (0x23 :: (body ++ 0x0A :: g))[body.length + 2 + n]? = g[n]? := by
          intro n
          rw [show body.length + 2 + n = (body.length + (n + 1)) + 1 by omega,
            List.getElem?_cons_succ, List.getElem?_append_right (by omega), Nat.add_sub_cancel_left,
            List.getElem?_cons_succ]
        rw [tail] at found
        refine (ih found).imp_right ?_
        rintro ⟨j, le, opens, line⟩
        refine ⟨body.length + 2 + j, by omega, by rwa [tail], ?_⟩
        intro k low high
        obtain ⟨k, rfl⟩ := Nat.exists_eq_add_of_le (show body.length + 2 ≤ k by omega)
        rw [tail]
        exact line k (by omega) (by omega)
  | @unended body line =>
      refine .inr ⟨0, Nat.zero_le i, rfl, ?_⟩
      intro k _ _
      cases k with
      | zero => simp
      | succ k =>
          rw [List.getElem?_cons_succ]
          exact fun newline => line (List.mem_of_getElem? newline)

end Blank

/-! ## The lexer's steps -/

theorem advance_offset (p : Position) (bytes : Bytes) :
    (p.advance bytes).offset = p.offset + bytes.length := by
  induction bytes generalizing p with
  | nil => rfl
  | cons b bytes ih =>
      unfold Position.advance
      rw [ih, List.length_cons]
      split
      all_goals simp only
      all_goals omega

namespace Cursor

/-- The cursor moves over the bytes. -/
def Moves (c : Cursor) (w : Bytes) (c' : Cursor) : Prop :=
  c.rest = w ++ c'.rest ∧ c'.position.offset = c.position.offset + w.length

theorem accept_moves (c : Cursor) (n : Nat) : c.Moves (c.rest.take n) (c.accept n) := by
  refine ⟨(List.take_append_drop n c.rest).symm, ?_⟩
  unfold accept
  rw [advance_offset]

theorem Moves.trans {c c' c'' : Cursor} {v w : Bytes} (first : c.Moves v c')
    (next : c'.Moves w c'') : c.Moves (v ++ w) c'' := by
  refine ⟨by rw [first.1, next.1, List.append_assoc], ?_⟩
  rw [next.2, first.2, List.length_append, Nat.add_assoc]

theorem idxOf?_split {bytes : Bytes} {b : UInt8} {i : Nat} (h : bytes.idxOf? b = some i) :
    b ∉ bytes.take i ∧ bytes.take (i + 1) = bytes.take i ++ [b] := by
  obtain ⟨lt, same, before⟩ := List.idxOf?_eq_some_iff.mp h
  refine ⟨?_, by rw [← List.take_append_getElem lt, same]⟩
  intro mem
  obtain ⟨j, low, found⟩ := List.mem_take_iff_getElem.mp mem
  exact before j (by omega) found

/-- Skipping reads a gap, which ends the text only where nothing is left. -/
theorem skipSpace_moves (c : Cursor) : (c.skipSpace true).1 = true ∧
    ∃ g, c.Moves g (c.skipSpace true).2 ∧ Blank true g ∧
      ((c.skipSpace true).2.rest ≠ [] → Blank false g) := by
  fun_induction skipSpace true c with
  | case1 c ended => exact ⟨rfl, [], ⟨rfl, rfl⟩, .nil true, fun _ => .nil false⟩
  | case2 c b rest whole space ih =>
      obtain ⟨through, g, moves, blank, closed⟩ := ih
      have run := List.prefix_iff_eq_take.mp (List.takeWhile_prefix isSpace (l := rest))
      have first := accept_moves c (1 + (rest.takeWhile isSpace).length)
      have taken : c.rest.take (1 + (rest.takeWhile isSpace).length) =
          b :: rest.takeWhile isSpace := by
        rw [whole, Nat.add_comm, List.take_succ_cons, ← run]
      rw [taken] at first
      have white : ∀ a ∈ b :: rest.takeWhile isSpace, isSpace a = true := by
        intro a mem
        rcases List.mem_cons.mp mem with rfl | later
        · exact space
        · exact List.mem_takeWhile_imp later
      exact ⟨through, _, first.trans moves, .spaces white blank,
        fun more => .spaces white (closed more)⟩
  | case3 c rest i found whole space ih =>
      obtain ⟨through, g, moves, blank, closed⟩ := ih
      obtain ⟨line, taken⟩ := idxOf?_split found
      have first := accept_moves c (i + 2)
      rw [whole, List.take_succ_cons, taken] at first
      have joined : 0x23 :: (rest.take i ++ [0x0A]) ++ g = 0x23 :: (rest.take i ++ 0x0A :: g) := by
        simp
      refine ⟨through, _, first.trans moves, ?_, fun more => ?_⟩
      · rw [joined]
        exact .comment line blank
      · rw [joined]
        exact .comment line (closed more)
  | case4 c rest found ended whole space =>
      have moves := accept_moves c c.rest.length
      have taken : c.rest.take c.rest.length = 0x23 :: rest := by rw [List.take_length, whole]
      rw [taken] at moves
      refine ⟨rfl, 0x23 :: rest, moves, .unended (List.idxOf?_eq_none_iff.mp found), ?_⟩
      intro more
      exact absurd (List.drop_length (l := c.rest)) more
  | case5 c rest found more => exact absurd rfl more
  | case6 c b rest whole space comment =>
      exact ⟨rfl, [], ⟨rfl, rfl⟩, .nil true, fun _ => .nil false⟩

/-- What the lexer does at a cursor of a text fed whole. -/
inductive Steps (c : Cursor) : Lexed × Cursor → Prop where
  | eof {p : Position} {c' : Cursor} (blank : Blank true c.rest) : Steps c (.eof p, c')
  | token {g w : Bytes} {p : Position} {t : Token} {c₁ c' : Cursor} (skipped : c.Moves g c₁)
      (blank : Blank false g) (starts : p.offset = c₁.position.offset) (read : c₁.Moves w c')
      (some_ : w ≠ []) (colon : t.kind = .prefixName → 0x3A ∈ w) : Steps c (.token p t, c')
  | error {g : Bytes} {e : ParseError} {c' : Cursor} (skipped : c.Moves g c')
      (blank : Blank false g) (more : c'.rest ≠ [])
      (low : c'.position.offset ≤ e.position.offset)
      (high : e.position.offset ≤ c'.position.offset + c'.rest.length) : Steps c (.error e, c')

/-- The lexer does not panic and does not ask for more input. -/
theorem nextWhole_steps (c : Cursor) : ∃ r, c.nextWhole = some r ∧ c.next true false = r ∧
    Steps c r := by
  obtain ⟨through, g, moves, blank, closed⟩ := skipSpace_moves c
  rcases skipped : c.skipSpace true with ⟨b, c₁⟩
  rw [skipped] at through moves closed
  simp only at through moves closed
  subst through
  have settled : ∀ some_ : c₁.rest ≠ [],
      (lexToken true false c₁.rest).Settled true c₁.rest.length (Word c₁.rest) :=
    fun some_ => lexToken_settled true false some_
  have sliced : slicesIn c₁.rest = true := by
    unfold slicesIn
    cases some_ : c₁.rest with
    | nil => rfl
    | cons a rest =>
        have settled := settled (by simp [some_])
        rw [some_] at settled
        split
        · rfl
        · rename_i off message read
          rw [read] at settled
          exact decide_eq_true settled.1
        · rename_i n t read
          rw [read] at settled
          exact decide_eq_true settled.1
  refine ⟨c.next true false, ?_, rfl, ?_⟩
  · unfold nextWhole
    rw [skipped]
    exact if_pos sliced
  · unfold next
    rw [skipped]
    simp only
    split
    · rename_i none
      rw [if_pos trivial]
      refine .eof ?_
      rw [moves.1, none, List.append_nil]
      exact blank
    · rename_i more
      have settled := settled more
      split
      · rename_i read
        rw [read] at settled
        cases settled
      · rename_i off message read
        rw [read] at settled
        refine .error moves (closed more) more ?_ ?_
        · simp only [advance_offset]
          omega
        · simp only [advance_offset, List.length_take]
          omega
      · rename_i n t read
        rw [read] at settled
        have wide := lexToken_pos read
        have some_ : c₁.rest.take n ≠ [] := by
          rw [← List.length_pos_iff, List.length_take]
          have := List.length_pos_iff.mpr more
          omega
        exact .token moves (closed more) rfl (accept_moves c₁ n) some_ settled.2

theorem recoverPast_moves {c : Cursor} (more : c.rest ≠ []) (bad : Nat) :
    ∃ w, w ≠ [] ∧ c.Moves w (c.recoverPast bad) := by
  refine ⟨_, ?_, accept_moves c _⟩
  rw [← List.length_pos_iff, List.length_take]
  have := List.length_pos_iff.mpr more
  omega

theorem le_recoverPast {src : Bytes} {c : Cursor} (inside : c.position.offset ≤ src.length)
    (rest : src.drop c.position.offset = c.rest) (bad : Nat) :
    min (bad + 1) src.length ≤ (c.recoverPast bad).position.offset := by
  have length := congrArg List.length rest
  rw [List.length_drop] at length
  simp only [recoverPast, accept, advance_offset, List.length_take]
  omega

end Cursor

/-! ## Spans of one token -/

theorem span_new {start stop : Nat} (kind : HlKind) (le : start ≤ stop) (small : stop < 2 ^ 32) :
    (HlToken.new start stop kind).span = (start, stop) := by
  unfold HlToken.span HlToken.new
  simp only [UInt32.toNat_ofNat']
  rw [Nat.mod_eq_of_lt (Nat.lt_of_le_of_lt le small), Nat.mod_eq_of_lt small]

/-- The spans of one token: the whole of it, or the parts of a prefixed name, which is cut
behind its first colon. -/
inductive Pieces (src : Bytes) (t : Token) (start stop : Nat) : List HlToken → Prop where
  | whole (other : t.kind ≠ .prefixName) : Pieces src t start stop [.new start stop t.kind]
  | name {colon : Nat} (isName : t.kind = .prefixName) (low : start ≤ colon) (high : colon < stop)
      (found : src[colon]? = some 0x3A)
      (first : ∀ i, start ≤ i → i < colon → src[i]? ≠ some 0x3A) :
      Pieces src t start stop (.new start (colon + 1) .prefixName ::
        if colon + 1 < stop then [.new (colon + 1) stop .localName] else [])

theorem Token.kind_ne (t : Token) : t.kind ≠ .error := by
  cases t <;> simp [Token.kind]

/-- No part of a token is an error. -/
theorem Pieces.clean {src : Bytes} {t : Token} {start stop : Nat} {spans : List HlToken}
    (parts : Pieces src t start stop spans) {u : HlToken} (mem : u ∈ spans) : u.kind ≠ .error := by
  cases parts with
  | whole other =>
      rw [List.mem_singleton] at mem
      rw [mem]
      exact t.kind_ne
  | name isName low high found first =>
      rcases List.mem_cons.mp mem with rfl | mem
      · exact HlKind.noConfusion
      · split at mem
        · rw [List.mem_singleton] at mem
          rw [mem]
          exact HlKind.noConfusion
        · cases mem

theorem push_pieces {t : Token} {start : Nat} {w src : Bytes}
    (slice : sliceOf src start (start + w.length) = some w)
    (colon : t.kind = .prefixName → 0x3A ∈ w) :
    ∃ spans, push t start (start + w.length) src = some spans ∧
      Pieces src t start (start + w.length) spans := by
  have inside : ∀ i, i < w.length → src[start + i]? = w[i]? := by
    intro i lt
    unfold sliceOf at slice
    split at slice
    · rw [← Option.some.inj slice, List.getElem?_drop, List.getElem?_take_of_lt (by omega)]
    · cases slice
  cases t with
  | pname ns loc =>
      obtain ⟨i, found⟩ := Option.isSome_iff_exists.mp (List.isSome_idxOf?.mpr (colon rfl))
      obtain ⟨lt, same, before⟩ := List.idxOf?_eq_some_iff.mp found
      simp only [push, slice, Option.bind_eq_bind, Option.bind_some, found, Option.elim_some,
        Option.pure_def]
      have first : ∀ k, start ≤ k → k < start + i → src[k]? ≠ some 0x3A := by
        intro k low high
        obtain ⟨j, rfl⟩ := Nat.exists_eq_add_of_le low
        rw [inside j (by omega), List.getElem?_eq_getElem (by omega)]
        exact fun colon => before j (by omega) (Option.some.inj colon)
      have parts : Pieces src (.pname ns loc) start (start + w.length)
          (.new start (start + i + 1) .prefixName ::
            if start + i + 1 < start + w.length then
              [.new (start + i + 1) (start + w.length) .localName] else []) :=
        .name rfl (Nat.le_add_right _ _) (by omega)
          (by rw [inside i lt, List.getElem?_eq_getElem lt, same]) first
      split
      · rename_i more
        rw [if_pos more] at parts
        exact ⟨_, rfl, parts⟩
      · rename_i last
        rw [if_neg last] at parts
        exact ⟨_, rfl, parts⟩
  | _ => exact ⟨_, rfl, .whole (by simp [Token.kind])⟩

/-! ## The spans of the text -/

/-- The cursor stands in the text. -/
def Stands (src : Bytes) (c : Cursor) : Prop :=
  c.position.offset ≤ src.length ∧ src.drop c.position.offset = c.rest

theorem Stands.moves {src w : Bytes} {c c' : Cursor} (stands : Stands src c)
    (moves : c.Moves w c') : Stands src c' := by
  obtain ⟨le, rest⟩ := stands
  have length := congrArg List.length rest
  rw [moves.1, List.length_drop, List.length_append] at length
  refine ⟨by rw [moves.2]; omega, ?_⟩
  rw [moves.2, ← List.drop_drop, rest, moves.1, List.drop_left]

theorem Stands.slice {src w : Bytes} {c c' : Cursor} (stands : Stands src c)
    (moves : c.Moves w c') :
    sliceOf src c.position.offset (c.position.offset + w.length) = some w := by
  have behind := (stands.moves moves).1
  rw [moves.2] at behind
  unfold sliceOf
  rw [if_pos ⟨Nat.le_add_right _ _, behind⟩, List.drop_take, stands.2, moves.1,
    Nat.add_sub_cancel_left, List.take_left]

theorem laid_word {src : Bytes} {start stop : Nat} {spans : List (Nat × Nat)} (lt : start < stop)
    (le : stop ≤ src.length) (more : Laid Blank stop (src.drop stop) spans) :
    Laid Blank start (src.drop start) ((start, stop) :: spans) := by
  have length : ((src.drop start).take (stop - start)).length = stop - start := by
    rw [List.length_take, List.length_drop]
    omega
  have split : src.drop start = [] ++ ((src.drop start).take (stop - start) ++ src.drop stop) := by
    have behind : src.drop stop = (src.drop start).drop (stop - start) := by
      rw [List.drop_drop]
      congr 1
      omega
    rw [List.nil_append, behind, List.take_append_drop]
  have ends : start + ([] : Bytes).length + ((src.drop start).take (stop - start)).length = stop := by
    rw [length, List.length_nil]
    omega
  rw [← ends] at more
  have laid := Laid.word (.nil false) (by rw [← List.length_pos_iff, length]; omega) more
  rw [ends, ← split] at laid
  exact laid

theorem laid_end (src : Bytes) : Laid Blank src.length (src.drop src.length) [] := by
  rw [List.drop_length]
  exact .done (.nil true)

theorem laid_gap {src g : Bytes} {c c' : Cursor} {spans : List (Nat × Nat)} (stands : Stands src c)
    (moves : c.Moves g c') (blank : Blank false g)
    (more : Laid Blank c'.position.offset (src.drop c'.position.offset) spans) :
    Laid Blank c.position.offset (src.drop c.position.offset) spans := by
  rw [(stands.moves moves).2, moves.2] at more
  rw [stands.2, moves.1]
  exact more.prepend fun last h => blank.append

theorem laid_pieces {src : Bytes} {t : Token} {start stop : Nat} {spans : List HlToken}
    {later : List (Nat × Nat)} (parts : Pieces src t start stop spans) (lt : start < stop)
    (le : stop ≤ src.length) (small : src.length < 2 ^ 32)
    (more : Laid Blank stop (src.drop stop) later) :
    Laid Blank start (src.drop start) (spans.map HlToken.span ++ later) := by
  cases parts with
  | whole other =>
      rw [List.map_singleton, span_new _ (Nat.le_of_lt lt) (by omega)]
      exact laid_word lt le more
  | @name colon isName low high found first =>
      rw [List.map_cons, span_new _ (by omega) (by omega)]
      refine laid_word (by omega) (by omega) ?_
      split
      · rename_i local_
        rw [List.map_singleton, span_new _ (by omega) (by omega)]
        exact laid_word local_ le more
      · have ends : colon + 1 = stop := by omega
        rw [ends]
        exact more

theorem laid_flushErr {src : Bytes} (errStart : Option Nat) {upto : Nat}
    {spans : List (Nat × Nat)} (run : ∀ s, errStart = some s → s < upto) (le : upto ≤ src.length)
    (small : src.length < 2 ^ 32) (more : Laid Blank upto (src.drop upto) spans) :
    Laid Blank (errStart.getD upto) (src.drop (errStart.getD upto))
      ((flushErr errStart upto).map HlToken.span ++ spans) := by
  cases errStart with
  | none => exact more
  | some s =>
      have lt := run s rfl
      unfold flushErr
      simp only
      rw [if_pos lt, List.map_singleton, span_new _ (Nat.le_of_lt lt) (by omega)]
      exact laid_word lt le more

/-- Behind the gap the open run of errors ends, if there is one; else the gap goes on. -/
theorem laid_resume {src g : Bytes} {c c' : Cursor} {errStart : Option Nat}
    {spans : List (Nat × Nat)} (small : src.length < 2 ^ 32) (stands : Stands src c)
    (run : ∀ s, errStart = some s → s < c.position.offset) (moves : c.Moves g c')
    (blank : Blank false g)
    (more : Laid Blank c'.position.offset (src.drop c'.position.offset) spans) :
    Laid Blank (errStart.getD c.position.offset) (src.drop (errStart.getD c.position.offset))
      ((flushErr errStart c'.position.offset).map HlToken.span ++ spans) := by
  cases errStart with
  | none => exact laid_gap stands moves blank more
  | some s =>
      refine laid_flushErr (some s) ?_ (stands.moves moves).1 small more
      rintro _ ⟨⟩
      rw [moves.2]
      exact Nat.lt_add_right _ (run s rfl)

section Unfolding

variable {src : Bytes} {c c' : Cursor} {errStart : Option Nat}

theorem tokenizeFrom_eof {p : Position} (h : c.nextWhole = some (.eof p, c')) :
    tokenizeFrom src c errStart = some (flushErr errStart src.length) := by
  rw [tokenizeFrom]
  split
  all_goals rename_i same
  all_goals cases h.symm.trans same
  rfl

theorem tokenizeFrom_token {p : Position} {t : Token} {spans rest : List HlToken}
    (h : c.nextWhole = some (.token p t, c'))
    (pushed : push t p.offset c'.position.offset src = some spans)
    (later : tokenizeFrom src c' none = some rest) :
    tokenizeFrom src c errStart = some (flushErr errStart p.offset ++ (spans ++ rest)) := by
  rw [tokenizeFrom]
  split
  all_goals rename_i same
  all_goals cases h.symm.trans same
  simp only [pushed, later, Option.bind_eq_bind, Option.bind_some, Option.pure_def]

theorem tokenizeFrom_open {e : ParseError} {b : UInt8} {kind : HlKind}
    (h : c.nextWhole = some (.error e, c')) (starts : e.position.offset = c'.position.offset)
    (found : src[c'.position.offset]? = some b) (opener : provisional b = some kind) :
    tokenizeFrom src c errStart = some (flushErr errStart c'.position.offset ++
      [.new c'.position.offset src.length kind]) := by
  rw [tokenizeFrom]
  split
  all_goals rename_i same
  all_goals cases h.symm.trans same
  simp only [starts, if_true, found, Option.bind_some, opener]

theorem tokenizeFrom_recover {e : ParseError} (h : c.nextWhole = some (.error e, c'))
    (no : (if e.position.offset = c'.position.offset then
      src[c'.position.offset]?.bind provisional else none) = none) :
    tokenizeFrom src c errStart = tokenizeFrom src (c'.recoverPast e.position.offset)
      (some (errStart.getD (min c'.position.offset e.position.offset))) := by
  rw [tokenizeFrom]
  split
  all_goals rename_i same
  all_goals cases h.symm.trans same
  simp only [no]

end Unfolding

/-- By induction on the bytes left.  The open run of errors, if there is one, begins before the
cursor, and the spans of the rest of the text begin with it. -/
theorem tokenizeFrom_laid {src : Bytes} (small : src.length < 2 ^ 32) {c : Cursor}
    {errStart : Option Nat} (stands : Stands src c)
    (run : ∀ s, errStart = some s → s < c.position.offset) :
    ∃ spans, tokenizeFrom src c errStart = some spans ∧
      Laid Blank (errStart.getD c.position.offset)
        (src.drop (errStart.getD c.position.offset)) (spans.map HlToken.span) := by
  induction left : c.rest.length using Nat.strong_induction_on generalizing c errStart with
  | _ n ih =>
  subst left
  obtain ⟨r, whole, -, steps⟩ := c.nextWhole_steps
  cases steps with
  | eof blank =>
      refine ⟨_, tokenizeFrom_eof whole, ?_⟩
      cases errStart with
      | none =>
          rw [Option.getD_none, stands.2]
          exact .done blank
      | some s =>
          have before : ∀ s', some s = some s' → s' < src.length := by
            rintro _ ⟨⟩
            exact Nat.lt_of_lt_of_le (run s rfl) stands.1
          have laid := laid_flushErr (some s) before (Nat.le_refl _) small (laid_end src)
          rwa [List.append_nil] at laid
  | @token g w p t c₁ c' skipped blank starts read some_ colon =>
      have fewer : c'.rest.length < c.rest.length := by
        have wide := List.length_pos_iff.mpr some_
        rw [skipped.1, read.1, List.length_append, List.length_append]
        omega
      have stands₁ := stands.moves skipped
      have stands' := stands₁.moves read
      have closed : ∀ s, none = some s → s < c'.position.offset := fun _ h => nomatch h
      obtain ⟨rest, later, laid⟩ := ih _ fewer stands' closed rfl
      obtain ⟨spans, pushed, parts⟩ := push_pieces (stands₁.slice read) colon
      rw [← read.2, ← starts] at pushed
      refine ⟨_, tokenizeFrom_token whole pushed later, ?_⟩
      rw [starts, List.map_append, List.map_append]
      refine laid_resume small stands run skipped blank ?_
      have wide : c₁.position.offset < c'.position.offset := by
        have := List.length_pos_iff.mpr some_
        rw [read.2]
        omega
      rw [← read.2] at parts
      exact laid_pieces parts wide stands'.1 small laid
  | @error g e c' skipped blank more low high =>
      have stands' := stands.moves skipped
      have lt : c'.position.offset < src.length := by
        have length := congrArg List.length stands'.2
        have := List.length_pos_iff.mpr more
        rw [List.length_drop] at length
        omega
      cases opens : (if e.position.offset = c'.position.offset then
          src[c'.position.offset]?.bind provisional else none) with
      | some kind =>
          split at opens
          · rename_i starts
            obtain ⟨b, found, opener⟩ := Option.bind_eq_some_iff.mp opens
            refine ⟨_, tokenizeFrom_open whole starts found opener, ?_⟩
            rw [List.map_append]
            refine laid_resume small stands run skipped blank ?_
            rw [List.map_singleton, span_new _ (Nat.le_of_lt lt) small]
            exact laid_word lt (Nat.le_refl _) (laid_end src)
          · cases opens
      | none =>
          rw [tokenizeFrom_recover whole opens]
          obtain ⟨w, some_, moves⟩ := Cursor.recoverPast_moves more e.position.offset
          have wide := List.length_pos_iff.mpr some_
          have fewer : (c'.recoverPast e.position.offset).rest.length < c.rest.length := by
            rw [skipped.1, moves.1, List.length_append, List.length_append]
            omega
          have first : min c'.position.offset e.position.offset = c'.position.offset :=
            Nat.min_eq_left low
          rw [first]
          have opened : ∀ s, some (errStart.getD c'.position.offset) = some s →
              s < (c'.recoverPast e.position.offset).position.offset := by
            rintro _ ⟨⟩
            rw [moves.2]
            cases errStart with
            | none => exact Nat.lt_add_of_pos_right wide
            | some s =>
                have := run s rfl
                rw [Option.getD_some, skipped.2]
                omega
          obtain ⟨spans, later, laid⟩ := ih _ fewer (stands'.moves moves) opened rfl
          refine ⟨spans, later, ?_⟩
          cases errStart with
          | none => exact laid_gap stands skipped blank laid
          | some s => exact laid

/-! ## Partitions -/

/-- The byte at `i` is part of a comment: one opens before it, outside every span, and neither
a line end nor a span comes between. -/
def InComment (src : Bytes) (spans : List HlToken) (i : Nat) : Prop :=
  ∃ j ≤ i, src[j]? = some 0x23 ∧ ∀ k, j ≤ k → k ≤ i →
    src[k]? ≠ some 0x0A ∧ ∀ t ∈ spans, ¬ Spanned t.span k

/-- The spans are in order and disjoint, and what they leave out is whitespace and comments. -/
structure Partitions (src : Bytes) (spans : List HlToken) : Prop where
  some_ : ∀ t ∈ spans, t.start < t.stop
  within : ∀ t ∈ spans, t.stop.toNat ≤ src.length
  ordered : spans.Pairwise fun t u => t.stop ≤ u.start
  gaps : ∀ i b, src[i]? = some b → (∀ t ∈ spans, ¬ Spanned t.span i) →
    Cursor.isSpace b = true ∨ InComment src spans i

theorem partitions_of_laid {src : Bytes} {spans : List HlToken}
    (laid : Laid Blank 0 src (spans.map HlToken.span)) : Partitions src spans where
  some_ := fun t mem => UInt32.lt_iff_toNat_lt.mpr (laid.bounds (List.mem_map_of_mem mem)).2.1
  within := by
    intro t mem
    have := (laid.bounds (List.mem_map_of_mem mem)).2.2
    rwa [Nat.zero_add] at this
  ordered := by
    refine (List.pairwise_map.mp laid.ordered).imp ?_
    intro t u le
    exact UInt32.le_iff_toNat_le.mpr le
  gaps := by
    intro i b found apart
    have inside := (List.getElem?_eq_some_iff.mp found).1
    obtain ⟨last, before, g, behind, same, blank, low, high, free⟩ := laid.outside inside (by
      intro s mem
      obtain ⟨t, isSpan, rfl⟩ := List.mem_map.mp mem
      rw [Nat.zero_add]
      exact apart t isSpan)
    have inGap : ∀ k, before.length ≤ k → k < before.length + g.length →
        src[k]? = g[k - before.length]? := by
      intro k low high
      rw [same, List.getElem?_append_right low, List.getElem?_append_left (by omega)]
    rw [inGap i low high] at found
    refine (blank.byte found).imp_right ?_
    rintro ⟨j, le, opens, line⟩
    refine ⟨before.length + j, by omega, ?_, ?_⟩
    · rw [inGap _ (by omega) (by omega), Nat.add_sub_cancel_left, opens]
    · intro k from_ upto
      refine ⟨?_, ?_⟩
      · rw [inGap k (by omega) (by omega)]
        exact line _ (by omega) (by omega)
      · intro t mem
        have apart := free k (by omega) (by omega) t.span (List.mem_map_of_mem mem)
        rwa [Nat.zero_add] at apart

end Graphy.Turtle
