import Graphy.Protocol.Proofs.Tables

/-!
# Reading TSV

A written cell reads as its term, whatever it contains.  A table reads back exactly when no
cell contains a tab.
-/

namespace Graphy.Protocol

open Graphy.Concise Graphy.Turtle

/-! ## Written terms as text -/

def quoted (lex : String) : Text := '"' :: lex.toList.flatMap escapeChar ++ ['"']

def dirText : Option Dir → Text
  | none => []
  | some d => (dirSuffix d).toList

/-- The characters of a written term. -/
def termText : TermView → Text
  | .iri i => '<' :: i.toList ++ ['>']
  | .blankNode label => ['_', ':'] ++ label.toList
  | .simple lex => quoted lex
  | .lang lex tag dir => quoted lex ++ '@' :: tag.toList ++ dirText dir
  | .datatyped lex dt =>
      quoted lex ++
        if dt ≠ Graphy.Vocab.xsdString then ['^', '^', '<'] ++ dt.toList ++ ['>'] else []
  | .tripleTerm s p o =>
      ['<', '<', '(', ' '] ++ termText s ++ ' ' :: termText p ++ ' ' :: termText o ++
        [' ', ')', '>', '>']

theorem writeString_eq_encode (lex : String) : writeString lex = Utf8.encode (quoted lex) := by
  have quote : String.utf8EncodeChar '"' = [0x22] := by decide
  rw [quoted, List.cons_append, Utf8.encode_cons, Utf8.encode_append, Utf8.encode_cons, quote,
    writeString, strBytes_eq_encode, flatMap_escapeByte]
  rfl

theorem writeTerm_eq_encode (v : TermView) : writeTerm v = Utf8.encode (termText v) := by
  have lt : String.utf8EncodeChar '<' = [0x3C] := by decide
  have gt : String.utf8EncodeChar '>' = [0x3E] := by decide
  have spaced : ∀ text, Utf8.encode (' ' :: text) = 0x20 :: Utf8.encode text := by
    intro text
    rw [Utf8.encode_cons, show String.utf8EncodeChar ' ' = [0x20] by decide, List.singleton_append]
  have at_ : String.utf8EncodeChar '@' = [0x40] := by decide
  induction v with
  | iri i =>
      simp only [termText, writeTerm, List.cons_append, Utf8.encode_cons, Utf8.encode_append,
        Utf8.encode_nil, List.append_nil, lt, gt, strBytes_eq_encode, List.nil_append]
  | blankNode label =>
      rw [termText, Utf8.encode_append, writeTerm, strBytes_eq_encode, strBytes_eq_encode]
      rfl
  | simple lex => exact writeString_eq_encode lex
  | lang lex tag dir =>
      have direction : writeDirection dir = Utf8.encode (dirText dir) := by
        cases dir with
        | none => rfl
        | some d => exact strBytes_eq_encode _
      simp only [termText, writeTerm, Utf8.encode_append, Utf8.encode_cons, at_,
        writeString_eq_encode, strBytes_eq_encode, direction, List.append_assoc, List.cons_append,
        List.nil_append]
  | datatyped lex dt =>
      have caret : strBytes "^^<" = Utf8.encode ['^', '^', '<'] := by decide +kernel
      have close : [0x3E] = Utf8.encode ['>'] := by decide
      rw [termText, writeTerm, Utf8.encode_append, writeString_eq_encode]
      split
      · rw [Utf8.encode_append, Utf8.encode_append, caret, close, strBytes_eq_encode dt]
      · rfl
  | tripleTerm s p o ihS ihP ihO =>
      have opens : strBytes "<<( " = Utf8.encode ['<', '<', '(', ' '] := by decide +kernel
      have closes : strBytes " )>>" = Utf8.encode [' ', ')', '>', '>'] := by decide +kernel
      rw [termText, writeTerm, opens, closes, ihS, ihP, ihO, Utf8.encode_append, Utf8.encode_append,
        Utf8.encode_append, Utf8.encode_append, spaced (termText p), spaced (termText o)]

theorem termNt_of_termOf {bytes : Bytes} {v : TermView} (h : termOf bytes = some v) :
    termNt bytes = termText v := by
  simp only [termNt, h, fromUtf8Lossy, writeTerm_eq_encode, utf8_encode, String.toList_ofList]

/-! ## Reading a cell -/

/-- Every token takes bytes. -/
theorem length_of_readsAll {trusted : Bool} {bytes rest : Bytes} {ts : List Token}
    (h : ReadsAll trusted bytes ts rest) : ts.length + rest.length ≤ bytes.length := by
  induction h with
  | nil => simp
  | cons first more ih =>
      obtain ⟨start, position, read⟩ := first true ⟨0, 1, 1⟩
      have shorter := Cursor.next_token_lt read
      rw [List.length_cons]
      simp only at shorter
      omega

/-- Behind the last token stands the space. -/
theorem next_blank (position : Position) :
    ∃ p c, Cursor.next true false ⟨[0x20], position⟩ = (.eof p, c) := by
  have moved := @Cursor.skipSpace_cons true ⟨[0x20], position⟩ 0x20 [] rfl
  rw [if_pos (by decide), @Cursor.skipSpace_nil true (Cursor.accept _ _) rfl] at moved
  unfold Cursor.next
  rw [moved]
  exact ⟨_, _, rfl⟩

theorem tokensOf_of_readsAll {bytes rest : Bytes} {ts : List Token}
    (h : ReadsAll false bytes ts rest) (behind : rest = [0x20]) {fuel : Nat}
    (enough : ts.length < fuel) (position : Position) :
    tokensOf fuel ⟨bytes, position⟩ = some ts := by
  induction h generalizing fuel position with
  | nil bytes =>
      subst behind
      obtain ⟨fuel, rfl⟩ := Nat.exists_eq_succ_of_ne_zero (Nat.ne_zero_of_lt enough)
      obtain ⟨p, c, read⟩ := next_blank position
      rw [tokensOf, read]
  | @cons bytes rest rest' t ts first more ih =>
      obtain ⟨fuel, rfl⟩ := Nat.exists_eq_succ_of_ne_zero (Nat.ne_zero_of_lt enough)
      obtain ⟨start, position', read⟩ := first true position
      rw [List.length_cons] at enough
      have rest := ih behind (show ts.length < fuel by omega) position'
      rw [tokensOf, read]
      simp only [rest, Option.map_some]

/-- The tokens go on with nothing that belongs to a literal. -/
def Stops : List Token → Prop
  | [] => True
  | t :: _ => tagOf t = none ∧ t ≠ .doubleCaret

theorem readLiteral_stops (lex : String) {ts : List Token} (h : Stops ts) :
    readLiteral lex ts = (.simple lex, ts) := by
  cases ts with
  | nil => rfl
  | cons t ts =>
      obtain ⟨noTag, noCaret⟩ := h
      cases t <;> first | rfl | exact absurd rfl noCaret | cases noTag

theorem readLiteral_tag (lex tag : String) (dir : Option Dir) (ts : List Token) :
    readLiteral lex (tagToken tag dir :: ts) = (.lang lex tag dir, ts) := by
  have same : ∀ name : String, strBytes tag = strBytes name → tag = name := by
    intro name bytes
    have read := utf8_strBytes tag
    rw [bytes, utf8_strBytes] at read
    exact (Except.ok.inj read).symm
  unfold tagToken directiveAt
  split
  · rename_i none_
    subst none_
    split
    · rw [same _ ‹_›]
      rfl
    · split
      · rw [same _ ‹_›]
        rfl
      · split
        · rw [same _ ‹_›]
          rfl
        · rfl
  · rfl

/-- By induction on the term: its tokens are read as the term, when nothing behind them
belongs to a literal. -/
theorem readTerm_termTokens {v : TermView} (valid : v.Valid) {levels : Nat} (le : v.depth < levels)
    {ts : List Token} (stops : Stops ts) : readTerm levels (termTokens v ++ ts) = some (v, ts) := by
  induction v generalizing levels ts with
  | iri i =>
      obtain ⟨levels, rfl⟩ := Nat.exists_eq_succ_of_ne_zero (Nat.ne_zero_of_lt le)
      rfl
  | blankNode label =>
      obtain ⟨levels, rfl⟩ := Nat.exists_eq_succ_of_ne_zero (Nat.ne_zero_of_lt le)
      rfl
  | simple lex =>
      obtain ⟨levels, rfl⟩ := Nat.exists_eq_succ_of_ne_zero (Nat.ne_zero_of_lt le)
      rw [termTokens, List.singleton_append, readTerm, readLiteral_stops lex stops]
  | lang lex tag dir =>
      obtain ⟨levels, rfl⟩ := Nat.exists_eq_succ_of_ne_zero (Nat.ne_zero_of_lt le)
      rw [termTokens, List.cons_append, List.singleton_append, readTerm, readLiteral_tag]
  | datatyped lex dt =>
      obtain ⟨levels, rfl⟩ := Nat.exists_eq_succ_of_ne_zero (Nat.ne_zero_of_lt le)
      obtain ⟨-, ordinary⟩ := valid
      have plain : dt ≠ Graphy.Vocab.xsdString := fun same => ordinary (.inl same)
      rw [termTokens, List.cons_append, List.cons_append, List.singleton_append, readTerm,
        readLiteral, typed, if_neg plain]
  | tripleTerm s p o ihS ihP ihO =>
      obtain ⟨levels, rfl⟩ := Nat.exists_eq_succ_of_ne_zero (Nat.ne_zero_of_lt le)
      obtain ⟨-, validS, validP, validO⟩ := valid
      rw [TermView.depth] at le
      have opens : ∀ (v : TermView) (us : List Token), Stops (termTokens v ++ us) := by
        intro v us
        cases v <;> exact ⟨rfl, Token.noConfusion⟩
      have readS := ihS validS (show s.depth < levels by omega)
        (opens p (termTokens o ++ .rParenGtGt :: ts))
      have readP := ihP validP (show p.depth < levels by omega) (opens o (.rParenGtGt :: ts))
      have readO := ihO validO (show o.depth < levels by omega)
        (show Stops (.rParenGtGt :: ts) from ⟨rfl, Token.noConfusion⟩)
      have shape : termTokens (.tripleTerm s p o) ++ ts = .ltLtParen ::
          (termTokens s ++ (termTokens p ++ (termTokens o ++ .rParenGtGt :: ts))) := by
        simp [termTokens]
      rw [shape, readTerm]
      simp only [readS, readP, readO, Option.bind_eq_bind, Option.bind_some, List.head?_cons,
        if_true, List.tail_cons]

theorem depth_lt_length (v : TermView) : v.depth < (termTokens v).length := by
  induction v with
  | tripleTerm s p o ihS ihP ihO =>
      simp only [TermView.depth, termTokens, List.length_cons, List.length_append]
      omega
  | _ => simp [TermView.depth, termTokens]

theorem termText_ne_nil (v : TermView) : termText v ≠ [] := by
  cases v <;> simp [termText, quoted]

/-- A written term is read as the term. -/
theorem readCell_termText {v : TermView} (valid : v.Valid) :
    readCell (termText v) = some (some v) := by
  have reads := @readsAll_term false [] spaces_nil v valid []
  rw [List.nil_append, writeTerm_eq_encode] at reads
  have short := length_of_readsAll reads
  have tokens := tokensOf_of_readsAll reads rfl
    (show (termTokens v).length < (Utf8.encode (termText v) ++ [0x20]).length + 1 by omega) ⟨0, 1, 1⟩
  have term := readTerm_termTokens valid (Nat.lt_succ_of_lt (depth_lt_length v))
    (show Stops [] from trivial)
  rw [List.append_nil] at term
  rw [readCell, if_neg (termText_ne_nil v)]
  simp only [tokens, Option.bind_eq_bind, Option.bind_some, term, if_true]

/-! ## Characters of written terms -/

/-- By induction on the term: every character of it but the four with an escape is written. -/
theorem mem_termText {v : TermView} (valid : v.Valid) {c : Char}
    (plain : c ∉ ['"', '\\', '\n', '\r']) (h : c ∈ chars v) : c ∈ termText v := by
  have ofText : ∀ lex : String, c ∈ lex.toList → c ∈ quoted lex := by
    intro lex mem
    simp only [List.mem_cons, List.not_mem_nil, or_false, not_or] at plain
    have same : escapeChar c = [c] := by
      simp [escapeChar, plain]
    rw [quoted, List.cons_append]
    refine List.mem_cons_of_mem _ (List.mem_append_left _ (List.mem_flatMap.mpr ⟨c, mem, ?_⟩))
    rw [same]
    exact List.mem_singleton_self c
  induction v with
  | iri i =>
      have inText : c ∈ i.toList := h
      simp [termText, inText]
  | blankNode label =>
      have inText : c ∈ label.toList := h
      simp [termText, inText]
  | simple lex => exact ofText lex h
  | lang lex tag dir =>
      rcases List.mem_append.mp h with inTag | inLex
      · simp [termText, inTag]
      · simp [termText, ofText lex inLex]
  | datatyped lex dt =>
      rcases List.mem_append.mp h with inDt | inLex
      · have ordinary : dt ≠ Graphy.Vocab.xsdString := fun same => valid.2 (.inl same)
        simp [termText, ordinary, inDt]
      · simp [termText, ofText lex inLex]
  | tripleTerm s p o ihS ihP ihO =>
      obtain ⟨-, validS, validP, validO⟩ := valid
      rcases List.mem_append.mp h with h | inO
      · rcases List.mem_append.mp h with inS | inP
        · simp [termText, ihS validS inS]
        · simp [termText, ihP validP inP]
      · simp [termText, ihO validO inO]

theorem control_of_mem_quoted {lex : String} {c : Char} (control : c.toNat < 0x20)
    (h : c ∈ quoted lex) : c ∈ lex.toList ∧ c ≠ '\n' := by
  have above : ∀ d ∈ ['"', '\\', 'n', 'r'], c ≠ d := by
    rintro d mem rfl
    have fixed : ∀ d ∈ ['"', '\\', 'n', 'r'], 0x20 ≤ d.toNat := forall_of_all (by decide)
    have high := fixed c mem
    omega
  simp only [quoted, List.cons_append, List.mem_cons, List.mem_append, List.mem_flatMap,
    List.not_mem_nil, or_false] at h
  rcases h with same | ⟨d, inText, escaped⟩ | same
  · exact absurd same (above _ (by simp))
  · unfold escapeChar at escaped
    split at escaped
    · simp only [List.mem_cons, List.not_mem_nil, or_false] at escaped
      rcases escaped with same | same
      · exact absurd same (above _ (by simp))
      · exact absurd same (above _ (by simp))
    · split at escaped
      · simp only [List.mem_cons, List.not_mem_nil, or_false, or_self] at escaped
        exact absurd escaped (above _ (by simp))
      · split at escaped
        · simp only [List.mem_cons, List.not_mem_nil, or_false] at escaped
          rcases escaped with same | same
          · exact absurd same (above _ (by simp))
          · exact absurd same (above _ (by simp))
        · rename_i notNewline
          split at escaped
          · simp only [List.mem_cons, List.not_mem_nil, or_false] at escaped
            rcases escaped with same | same
            · exact absurd same (above _ (by simp))
            · exact absurd same (above _ (by simp))
          · rw [List.mem_singleton] at escaped
            subst escaped
            exact ⟨inText, notNewline⟩
  · exact absurd same (above _ (by simp))

/-- Marks and the strings of a term without its lexical form are no controls. -/
theorem not_control {c : Char} (control : c.toNat < 0x20) {s : Text}
    (above : ∀ d ∈ s, 0x20 ≤ d.toNat) : c ∉ s := by
  intro mem
  have high := above c mem
  omega

/-- By induction on the term: a written control is one of the term, and no line feed. -/
theorem control_of_mem_termText {v : TermView} (valid : v.Valid) {c : Char}
    (control : c.toNat < 0x20) (h : c ∈ termText v) : c ∈ chars v ∧ c ≠ '\n' := by
  induction v with
  | iri i =>
      have inside : c ∉ termText (.iri i) := by
        refine not_control control fun d mem => ?_
        simp only [termText, List.cons_append, List.mem_cons, List.mem_append, List.not_mem_nil,
          or_false] at mem
        rcases mem with rfl | mem | rfl
        · decide
        · exact Nat.le_of_lt (iri_chars valid d mem)
        · decide
      exact absurd h inside
  | blankNode label =>
      have inside : c ∉ termText (.blankNode label) := by
        refine not_control control fun d mem => ?_
        simp only [termText, List.cons_append, List.mem_cons, List.nil_append] at mem
        rcases mem with rfl | rfl | mem
        · decide
        · decide
        · exact Nat.le_of_lt (Nat.lt_of_lt_of_le (by decide) (label_chars valid d mem).1)
      exact absurd h inside
  | simple lex => exact control_of_mem_quoted control h
  | lang lex tag dir =>
      have behind : c ∉ '@' :: tag.toList ++ dirText dir := by
        refine not_control control fun d mem => ?_
        simp only [List.cons_append, List.mem_cons, List.mem_append] at mem
        rcases mem with rfl | mem | mem
        · decide
        · exact Nat.le_of_lt (langTag_chars valid d mem)
        · have fixed : ∀ dir, ∀ d ∈ dirText dir, 0x20 ≤ d.toNat := by
            intro dir
            rcases dir with _ | _ | _ <;> exact forall_of_all (by decide)
          exact fixed dir d mem
      rw [termText, List.append_assoc, List.mem_append, or_iff_left behind] at h
      obtain ⟨inText, notNewline⟩ := control_of_mem_quoted control h
      exact ⟨List.mem_append_right _ inText, notNewline⟩
  | datatyped lex dt =>
      have behind : c ∉ (if dt ≠ Graphy.Vocab.xsdString then ['^', '^', '<'] ++ dt.toList ++ ['>']
          else []) := by
        refine not_control control fun d mem => ?_
        split at mem
        · simp only [List.cons_append, List.nil_append, List.mem_cons, List.mem_append,
            List.not_mem_nil, or_false] at mem
          rcases mem with rfl | rfl | rfl | mem | rfl
          · decide
          · decide
          · decide
          · exact Nat.le_of_lt (iri_chars valid.1 d mem)
          · decide
        · cases mem
      rw [termText, List.mem_append, or_iff_left behind] at h
      obtain ⟨inText, notNewline⟩ := control_of_mem_quoted control h
      exact ⟨List.mem_append_right _ inText, notNewline⟩
  | tripleTerm s p o ihS ihP ihO =>
      obtain ⟨-, validS, validP, validO⟩ := valid
      have opens : c ∉ ['<', '<', '(', ' '] := not_control control (forall_of_all (by decide))
      have closes : c ∉ [' ', ')', '>', '>'] := not_control control (forall_of_all (by decide))
      have blank : c ≠ ' ' := fun same => opens (by simp [same])
      have blanked : ∀ text, c ∈ ' ' :: text ↔ c ∈ text := fun text =>
        List.mem_cons.trans (or_iff_right blank)
      rw [termText, List.mem_append, List.mem_append, List.mem_append, List.mem_append,
        or_iff_right opens, or_iff_left closes, blanked, blanked] at h
      simp only [chars, List.mem_append]
      rcases h with (inS | inP) | inO
      · obtain ⟨inside, notNewline⟩ := ihS validS inS
        exact ⟨.inl (.inl inside), notNewline⟩
      · obtain ⟨inside, notNewline⟩ := ihP validP inP
        exact ⟨.inl (.inr inside), notNewline⟩
      · obtain ⟨inside, notNewline⟩ := ihO validO inO
        exact ⟨.inr inside, notNewline⟩

/-! ## Tables -/

section Tables

variable (T : Table)

def header : Text := join '\t' (T.vars.map fun v => '?' :: v.toList)

def line (row : List (Option Bytes)) : Text := join '\t' (row.map tsvCell)

/-- No cell contains a tab. -/
def Tabless : Prop := ∀ row ∈ T.rows, ∀ cell ∈ row, '\t' ∉ tsvCell cell

theorem toTsv_lines : toTsv T.results =
    some ((header T :: T.rows.map line).flatMap fun line => line ++ ['\n']) := by
  simp only [toTsv, Table.results, header, line, List.flatMap_cons, List.flatMap_map]

variable {T}

theorem control_tsvCell {row : List (Option Bytes)} (mem : row ∈ T.rows) {cell : Option Bytes}
    (inRow : cell ∈ row) {c : Char} (control : c.toNat < 0x20) (h : c ∈ tsvCell cell) :
    c ≠ '\n' ∧ ∃ terms ∈ T.solutions.rows, ∃ v, some v ∈ terms ∧ c ∈ chars v := by
  cases cell with
  | none => cases h
  | some bytes =>
      obtain ⟨t, v, bound⟩ := T.bound mem inRow
      have inText : c ∈ termText v := by
        rw [← termNt_of_termOf bound.termed]
        exact h
      obtain ⟨inside, notNewline⟩ := control_of_mem_termText bound.valid control inText
      obtain ⟨terms, inTerms, here⟩ := Table.mem_solutions mem inRow bound.termed
      exact ⟨notNewline, terms, inTerms, v, here, inside⟩

theorem control_not_mem_name {v : String} (named : isVarName v = true) {c : Char}
    (control : c.toNat < 0x20) : c ∉ '?' :: v.toList := by
  refine not_control control fun d mem => ?_
  rcases List.mem_cons.mp mem with rfl | mem
  · decide
  · exact Nat.le_of_lt (Nat.lt_of_lt_of_le (by decide) (varName_chars named d mem).1)

/-- No line feed stands in a line. -/
theorem newline_not_mem_lines : ∀ text ∈ header T :: T.rows.map line, '\n' ∉ text := by
  intro text mem newline
  rcases List.mem_cons.mp mem with rfl | mem
  · obtain ⟨piece, inPieces, inPiece⟩ := mem_join (by decide) newline
    obtain ⟨v, inVars, rfl⟩ := List.mem_map.mp inPieces
    exact control_not_mem_name (T.named v inVars) (by decide) inPiece
  · obtain ⟨row, inRows, rfl⟩ := List.mem_map.mp mem
    obtain ⟨piece, inPieces, inPiece⟩ := mem_join (by decide) newline
    obtain ⟨cell, inRow, rfl⟩ := List.mem_map.mp inPieces
    exact (control_tsvCell inRows inRow (by decide) inPiece).1 rfl

theorem splitAll_header : splitAll '\t' (header T) = T.vars.map fun v => '?' :: v.toList := by
  refine splitAll_join (by simpa using T.some_) fun piece mem => ?_
  obtain ⟨v, inVars, rfl⟩ := List.mem_map.mp mem
  exact control_not_mem_name (T.named v inVars) (by decide)

theorem readNames : (T.vars.map fun v => '?' :: v.toList).mapM readName = some T.vars := by
  have each : ∀ v ∈ T.vars, (readName ∘ fun v : String => '?' :: v.toList) v = some v := by
    intro v _
    rw [Function.comp_apply, readName, String.ofList_toList]
  rw [List.mapM_map, mapM_some each, List.map_id']

theorem readCell_tsvCell {row : List (Option Bytes)} (mem : row ∈ T.rows) {cell : Option Bytes}
    (inRow : cell ∈ row) : readCell (tsvCell cell) = some (cell.bind termOf) := by
  cases cell with
  | none => rfl
  | some bytes =>
      obtain ⟨t, v, bound⟩ := T.bound mem inRow
      have text : tsvCell (some bytes) = termText v := termNt_of_termOf bound.termed
      rw [text, readCell_termText bound.valid, Option.bind_some, bound.termed]

theorem splitAll_line (tabless : Tabless T) {row : List (Option Bytes)} (mem : row ∈ T.rows) :
    splitAll '\t' (line row) = row.map tsvCell := by
  refine splitAll_join (by simpa using row_ne_nil mem) fun piece inPieces => ?_
  obtain ⟨cell, inRow, rfl⟩ := List.mem_map.mp inPieces
  exact tabless row mem cell inRow

/-- A table without tabs is read back. -/
theorem readTsv_toTsv (tabless : Tabless T) : (toTsv T.results).bind readTsv = some T.solutions := by
  have lines : ∀ row ∈ T.rows, ((fun text => (splitAll '\t' text).mapM readCell) ∘ line) row =
      some (row.map fun cell => cell.bind termOf) := by
    intro row mem
    have cells : ∀ cell ∈ row, (readCell ∘ tsvCell) cell = some (cell.bind termOf) :=
      fun cell inRow => readCell_tsvCell mem inRow
    rw [Function.comp_apply, splitAll_line tabless mem, List.mapM_map, mapM_some cells]
  have width : ∀ terms ∈ T.solutions.rows, terms.length = T.vars.length := by
    intro terms mem
    obtain ⟨row, inRows, rfl⟩ := List.mem_map.mp mem
    rw [List.length_map, T.width row inRows]
  have rows : (T.rows.map line).mapM (fun text => (splitAll '\t' text).mapM readCell) =
      some T.solutions.rows := by
    rw [List.mapM_map, mapM_some lines]
    rfl
  rw [toTsv_lines, Option.bind_some, readTsv, splitAll_lines newline_not_mem_lines,
    List.cons_append]
  simp only [splitAll_header, readNames, List.dropLast_concat, rows, Option.bind_eq_bind,
    Option.bind_some, List.getLast?_concat, true_and]
  exact if_pos width

/-- Whatever is read of a table's document, no cell contains a tab. -/
theorem tabless_of_readTsv {s : Solutions} (h : (toTsv T.results).bind readTsv = some s) :
    Tabless T := by
  rw [toTsv_lines, Option.bind_some, readTsv, splitAll_lines newline_not_mem_lines,
    List.cons_append] at h
  simp only [splitAll_header, readNames, List.dropLast_concat, Option.bind_eq_bind,
    Option.bind_some, Option.bind_eq_some_iff] at h
  obtain ⟨rows, read, same⟩ := h
  split at same
  · rename_i width
    intro row mem cell inRow tab
    obtain ⟨terms, inTerms, readLine⟩ := forall_mapM read (List.mem_map_of_mem mem)
    have parts := length_mapM readLine
    rw [width.2 terms inTerms, length_splitAll] at parts
    have counted := @count_join '\t' (row.map tsvCell) (by simpa using row_ne_nil mem)
    rw [List.length_map, List.map_map, T.width row mem] at counted
    have none_ : (row.map (List.count '\t' ∘ tsvCell)).sum = 0 := by
      rw [← line] at counted
      omega
    have here := List.sum_eq_zero_iff_forall_eq_nat.mp none_ _ (List.mem_map_of_mem inRow)
    exact absurd (List.count_pos_iff.mpr tab) (Nat.not_lt.mpr (Nat.le_of_eq here))
  · cases same

end Tables

end Graphy.Protocol
