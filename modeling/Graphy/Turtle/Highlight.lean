import Graphy.Turtle.Lexer

/-!
# Highlighting

The tokenizer of an editor.  It runs the lexer over a text that is fed whole and classifies
the span of each token.  What the lexer refuses becomes an error span up to the next token,
except that an IRI or a string left open at the end keeps its own kind.
-/

namespace Graphy.Turtle

/-- A lexical class of a span. -/
inductive HlKind where
  | iri
  /-- The prefix of a prefixed name, with its colon. -/
  | prefixName
  /-- The local part of a prefixed name. -/
  | localName
  | blankNode
  | string
  | langTag
  | number
  | boolean
  | keyword
  | punct
  | operator
  | error
deriving DecidableEq, Repr

/-- A classified span of the text. -/
structure HlToken where
  start : UInt32
  stop : UInt32
  kind : HlKind
deriving DecidableEq, Repr

namespace HlToken

/-- The offsets are cut to 32 bits. -/
def new (start stop : Nat) (kind : HlKind) : HlToken :=
  ⟨UInt32.ofNat start, UInt32.ofNat stop, kind⟩

/-- The bytes from the first to the one behind the last. -/
def span (t : HlToken) : Nat × Nat := (t.start.toNat, t.stop.toNat)

end HlToken

/-- The class of a token that is one span. -/
def Token.kind : Token → HlKind
  | .iri _ => .iri
  | .pname _ _ => .prefixName
  | .blankLabel _ => .blankNode
  | .string _ _ _ => .string
  | .langTag _ _ => .langTag
  | .integer _ | .decimal _ | .double _ => .number
  | .kwTrue | .kwFalse => .boolean
  | .kwA | .kwPrefixAt | .kwBaseAt | .kwPrefixSparql | .kwBaseSparql | .kwGraph | .kwVersionAt
  | .kwVersionSparql => .keyword
  | .dot | .semicolon | .comma | .lParen | .rParen | .lBracket | .rBracket | .lBrace | .rBrace =>
      .punct
  | .doubleCaret | .ltLt | .gtGt | .ltLtParen | .rParenGtGt | .annoOpen | .annoClose | .tilde =>
      .operator

/-- The bytes from `start` to `stop`; nothing where the source panics. -/
def sliceOf (src : Bytes) (start stop : Nat) : Option Bytes :=
  if start ≤ stop ∧ stop ≤ src.length then some ((src.take stop).drop start) else none

/-- The spans of one token.  A prefixed name is cut behind its first colon. -/
def push (t : Token) (start stop : Nat) (src : Bytes) : Option (List HlToken) :=
  match t with
  | .pname _ _ => do
      let name ← sliceOf src start stop
      let colon := (name.idxOf? 0x3A).elim stop (start + ·)
      let namespaced := HlToken.new start (colon + 1) .prefixName
      if colon + 1 < stop then return [namespaced, .new (colon + 1) stop .localName]
      else return [namespaced]
  | t => some [.new start stop t.kind]

/-- The open run of errors, up to the next token. -/
def flushErr (errStart : Option Nat) (upto : Nat) : List HlToken :=
  match errStart with
  | none => []
  | some s => if s < upto then [.new s upto .error] else []

/-- What an IRI or a string that is left open is shown as. -/
def provisional (b : UInt8) : Option HlKind :=
  if b = 0x3C then some .iri
  else if b = 0x22 ∨ b = 0x27 then some .string
  else none

/-- Whether the slices that `err_at` and `accept` take for the next token lie in the buffer. -/
def slicesIn (bytes : Bytes) : Bool :=
  match lexToken true false bytes with
  | .needMore => true
  | .error off _ => decide (off ≤ bytes.length)
  | .done (n, _) => decide (n ≤ bytes.length)

def isContinuation (b : UInt8) : Bool := b &&& 0xC0 == 0x80

namespace Cursor

/-- The next token of a text fed whole; nothing where the source panics. -/
def nextWhole (c : Cursor) : Option (Lexed × Cursor) :=
  if slicesIn (c.skipSpace true).2.rest then some (c.next true false) else none

/-- Force the cursor past a bad byte, to the next boundary of characters. -/
def recoverPast (bad : Nat) (c : Cursor) : Cursor :=
  let k := max bad c.position.offset + 1 - c.position.offset
  let w := ((c.rest.drop k).takeWhile isContinuation).length
  c.accept (min (k + w) c.rest.length)

theorem length_recoverPast_lt {bad : Nat} {c : Cursor} (h : c.rest ≠ []) :
    (c.recoverPast bad).rest.length < c.rest.length := by
  have := List.length_pos_iff.mpr h
  simp only [recoverPast, accept, List.length_drop]
  omega

/-- An error leaves the bytes it is about. -/
theorem next_error {eof trusted : Bool} {c c' : Cursor} {e : ParseError}
    (h : c.next eof trusted = (.error e, c')) :
    (c.skipSpace eof).2 = c' ∧ c'.rest ≠ [] ∧ ∃ off, lexToken eof trusted c'.rest =
      .error off e.message ∧ e.position = c'.position.advance (c'.rest.take off) := by
  unfold next at h
  split at h
  · cases h
  · rename_i c1 skipped
    split at h
    · split at h <;> cases h
    · rename_i more
      split at h
      · cases h
      · rename_i off message found
        cases h
        exact ⟨by rw [skipped], more, off, found, rfl⟩
      · cases h

theorem nextWhole_lt {c c' : Cursor} {bad : Nat} {e : ParseError}
    (h : c.nextWhole = some (.error e, c')) :
    (c'.recoverPast bad).rest.length < c.rest.length := by
  unfold nextWhole at h
  split at h
  · obtain ⟨skipped, more, -⟩ := next_error (Option.some.inj h)
    refine Nat.lt_of_lt_of_le (length_recoverPast_lt more) ?_
    rw [← skipped]
    exact length_skipSpace_le true c
  · cases h

theorem nextWhole_token_lt {c c' : Cursor} {position : Position} {t : Token}
    (h : c.nextWhole = some (.token position t, c')) : c'.rest.length < c.rest.length := by
  unfold nextWhole at h
  split at h
  · exact next_token_lt (Option.some.inj h)
  · cases h

end Cursor

/-- The spans from the cursor on; `errStart` begins an open run of errors. -/
def tokenizeFrom (src : Bytes) (c : Cursor) (errStart : Option Nat) : Option (List HlToken) :=
  match _h : c.nextWhole with
  | none => none
  | some (.token start t, c') => do
      let spans ← push t start.offset c'.position.offset src
      let rest ← tokenizeFrom src c' none
      return flushErr errStart start.offset ++ (spans ++ rest)
  | some (.error e, c') =>
      let bad := e.position.offset
      let ts := c'.position.offset
      match if bad = ts then src[ts]?.bind provisional else none with
      | some kind => some (flushErr errStart ts ++ [.new ts src.length kind])
      | none => tokenizeFrom src (c'.recoverPast bad) (some (errStart.getD (min ts bad)))
  -- every token is there: the run of errors goes on to the end
  | some (.eof _, _) | some (.needMore, _) => some (flushErr errStart src.length)
termination_by c.rest.length
decreasing_by
  · exact Cursor.nextWhole_token_lt _h
  · exact Cursor.nextWhole_lt _h

/-- Tokenize a text for highlighting; nothing where the source panics. -/
def tokenize (src : Bytes) : Option (List HlToken) := tokenizeFrom src ⟨src, ⟨0, 1, 1⟩⟩ none

end Graphy.Turtle
