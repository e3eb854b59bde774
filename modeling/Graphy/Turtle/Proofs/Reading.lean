import Graphy.Turtle.Nx
import Graphy.Core.Proofs.Concise
import Graphy.Turtle.Proofs.Lexing

/-!
# Reading written terms

The tokens that the written terms of a line are read as, and what a driver that handles
them one after another makes of a run of the pump.
-/

namespace Graphy.Turtle

open Graphy.Concise

/-! ## Tokens of a line -/

/-- The bytes open with the token, whether or not the input ends behind them. -/
def Reads (trusted : Bool) (bytes : Bytes) (t : Token) (rest : Bytes) : Prop :=
  ∀ eof position, ∃ start position',
    Cursor.next eof trusted ⟨bytes, position⟩ = (.token start t, ⟨rest, position'⟩)

theorem skipSpace_gap (eof : Bool) (gap : Bytes) (spaces : gap.all Cursor.isSpace = true)
    {b : UInt8} (tail : Bytes) (opens : Cursor.isSpace b = false) (comment : b ≠ 0x23)
    (position : Position) : ∃ position',
      Cursor.skipSpace eof ⟨gap ++ b :: tail, position⟩ = (true, ⟨b :: tail, position'⟩) := by
  have stops : ∀ position,
      Cursor.skipSpace eof ⟨b :: tail, position⟩ = (true, ⟨b :: tail, position⟩) := by
    intro position
    rw [Cursor.skipSpace_cons rfl, if_neg (by rw [opens]; decide), if_neg comment]
  cases gap with
  | nil => exact ⟨position, stops position⟩
  | cons g gap =>
      rw [List.all_cons, Bool.and_eq_true, List.all_eq_true] at spaces
      rw [List.cons_append, Cursor.skipSpace_cons rfl, if_pos spaces.1,
        takeWhile_part spaces.2 opens]
      have moved : Cursor.accept ⟨g :: (gap ++ b :: tail), position⟩ (1 + gap.length) =
          ⟨b :: tail, position.advance ((g :: (gap ++ b :: tail)).take (1 + gap.length))⟩ := by
        unfold Cursor.accept
        simp only [Nat.add_comm 1, List.drop_succ_cons, List.drop_left]
      rw [moved]
      exact ⟨_, stops _⟩

theorem spaces_nil : ([] : Bytes).all Cursor.isSpace = true := rfl

theorem spaces_blank : ([0x20] : Bytes).all Cursor.isSpace = true := rfl

theorem spaces_newline : ([0x0A] : Bytes).all Cursor.isSpace = true := rfl

/-- A token behind spaces. -/
theorem reads_of_lexToken {trusted : Bool} (gap word : Bytes) {tail rest : Bytes} {b : UInt8}
    {t : Token}
    (spaces : gap.all Cursor.isSpace = true) (opens : Cursor.isSpace b = false)
    (comment : b ≠ 0x23) (begins : word = b :: tail)
    (lexed : ∀ eof, lexToken eof trusted (word ++ rest) = .done (word.length, t)) :
    Reads trusted (gap ++ (word ++ rest)) t rest := by
  intro eof position
  subst begins
  obtain ⟨position', skipped⟩ :=
    skipSpace_gap eof gap spaces (tail ++ rest) opens comment position
  refine ⟨Cursor.tokenPosition ⟨b :: tail ++ rest, position'⟩ (b :: tail).length,
    position'.advance ((b :: tail ++ rest).take (b :: tail).length), ?_⟩
  unfold Cursor.next
  rw [List.cons_append, skipped]
  simp only
  rw [← List.cons_append, lexed]
  simp only [Cursor.accept, List.drop_left]

/-- The bytes read as the tokens, one after another. -/
inductive ReadsAll (trusted : Bool) : Bytes → List Token → Bytes → Prop where
  | nil (bytes : Bytes) : ReadsAll trusted bytes [] bytes
  | cons {bytes rest rest' : Bytes} {t : Token} {ts : List Token}
      (first : Reads trusted bytes t rest) (more : ReadsAll trusted rest ts rest') :
      ReadsAll trusted bytes (t :: ts) rest'

theorem ReadsAll.append {trusted : Bool} {bytes rest rest' : Bytes} {ts us : List Token}
    (first : ReadsAll trusted bytes ts rest) (more : ReadsAll trusted rest us rest') :
    ReadsAll trusted bytes (ts ++ us) rest' := by
  induction first with
  | nil => exact more
  | cons reads _ ih => exact .cons reads (ih more)

theorem ReadsAll.single {trusted : Bool} {bytes rest : Bytes} {t : Token}
    (reads : Reads trusted bytes t rest) : ReadsAll trusted bytes [t] rest := .cons reads (.nil rest)

/-- The tokens of a written term. -/
def termTokens : TermView → List Token
  | .iri i => [.iri i]
  | .blankNode label => [.blankLabel label]
  | .simple lex => [.string lex false false]
  | .lang lex tag dir => [.string lex false false, tagToken tag dir]
  | .datatyped lex dt => [.string lex false false, .doubleCaret, .iri dt]
  | .tripleTerm s p o =>
      .ltLtParen :: (termTokens s ++ (termTokens p ++ (termTokens o ++ [.rParenGtGt])))

section Words

variable {trusted : Bool} {gap : Bytes} (spaces : gap.all Cursor.isSpace = true) (rest : Bytes)
include spaces

theorem reads_iri {i : String} (clean : Clean i) :
    Reads trusted (gap ++ (0x3C :: strBytes i ++ [0x3E] ++ rest)) (.iri i) rest := by
  refine reads_of_lexToken gap _ spaces (by decide) (by decide) rfl ?_
  intro eof
  have lexed := lexToken_iri eof trusted clean rest
  simpa using lexed

theorem reads_blank {label : String} (valid : Concise.validateBlankLabel label = .ok ()) :
    Reads trusted (gap ++ (strBytes "_:" ++ strBytes label ++ 0x20 :: rest)) (.blankLabel label)
      (0x20 :: rest) := by
  have mark : strBytes "_:" = [0x5F, 0x3A] := by decide +kernel
  rw [mark]
  refine reads_of_lexToken gap _ spaces (by decide) (by decide) rfl ?_
  intro eof
  have lexed := lexToken_blank eof trusted valid rest
  simpa using lexed

theorem reads_string (lex : String) {r : UInt8} (ends : r ≠ 0x22) :
    Reads trusted (gap ++ (writeString lex ++ r :: rest)) (.string lex false false)
      (r :: rest) := by
  refine reads_of_lexToken gap _ spaces (b := 0x22) (by decide) (by decide) rfl ?_
  intro eof
  exact lexToken_string eof trusted lex rest ends

end Words

theorem reads_tag {trusted : Bool} {tag : String} (dir : Option Dir)
    (valid : validateLangTagNormalized tag = .ok ()) (rest : Bytes) :
    Reads trusted (0x40 :: strBytes tag ++ writeDirection dir ++ 0x20 :: rest)
      (tagToken tag dir) (0x20 :: rest) := by
  have lexed : ∀ eof, lexToken eof trusted
      (0x40 :: (strBytes tag ++ writeDirection dir) ++ 0x20 :: rest) =
      .done ((0x40 :: (strBytes tag ++ writeDirection dir)).length, tagToken tag dir) := by
    intro eof
    have size : (0x40 :: (strBytes tag ++ writeDirection dir)).length =
        1 + (strBytes tag).length + (writeDirection dir).length := by
      simp only [List.length_append, List.length_cons]
      omega
    rw [size, ← lexToken_tag eof trusted dir valid rest]
    simp
  exact reads_of_lexToken [] _ rfl (b := 0x40) (by decide) (by decide) rfl lexed

theorem reads_caret {trusted : Bool} (rest : Bytes) :
    Reads trusted (0x5E :: 0x5E :: rest) .doubleCaret rest := by
  refine reads_of_lexToken [] [0x5E, 0x5E] rfl (by decide) (by decide) rfl ?_
  intro eof
  unfold lexToken
  simp only [List.cons_append, List.nil_append, show opening 0x5E = .caret by decide]
  rfl

section Marks

variable {trusted : Bool} (rest : Bytes)

theorem reads_open {gap : Bytes} (spaces : gap.all Cursor.isSpace = true) :
    Reads trusted (gap ++ (0x3C :: 0x3C :: 0x28 :: rest)) .ltLtParen rest := by
  refine reads_of_lexToken gap [0x3C, 0x3C, 0x28] spaces (by decide) (by decide) rfl ?_
  intro eof
  rfl

theorem reads_close :
    Reads trusted (0x20 :: 0x29 :: 0x3E :: 0x3E :: rest) .rParenGtGt rest := by
  refine reads_of_lexToken [0x20] [0x29, 0x3E, 0x3E] rfl (by decide)
    (by decide) rfl ?_
  intro eof
  unfold lexToken
  simp only [List.cons_append, List.nil_append, show opening 0x29 = .rParen by decide]
  rfl

theorem reads_dot : Reads trusted (0x20 :: 0x2E :: 0x0A :: rest) .dot (0x0A :: rest) := by
  refine reads_of_lexToken [0x20] [0x2E] rfl (by decide) (by decide) rfl ?_
  intro eof
  unfold lexToken
  simp only [List.cons_append, List.nil_append, show opening 0x2E = .dot by decide]
  rfl

end Marks

theorem termOf_of_decode {bytes : Bytes} {t : TermRef} (h : decode bytes = .ok t) :
    ∃ v, termOf bytes = some v ∧ view t = some v ∧ v.Valid ∧ v.depth ≤ maxTripleTermDepth := by
  obtain ⟨v, viewed, valid, depth⟩ := valid_of_decode h
  refine ⟨v, ?_, viewed, valid, depth⟩
  rw [termOf, h]
  exact viewed

/-- By induction on the term: a written term reads as its tokens, up to the space behind it. -/
theorem readsAll_term {trusted : Bool} {gap : Bytes} (spaces : gap.all Cursor.isSpace = true)
    {v : TermView} (valid : v.Valid) (rest : Bytes) :
    ReadsAll trusted (gap ++ (writeTerm v ++ 0x20 :: rest)) (termTokens v) (0x20 :: rest) := by
  induction v generalizing gap rest with
  | iri i => exact .single (reads_iri spaces (0x20 :: rest) (clean_of_validateIri valid))
  | blankNode label => exact .single (reads_blank spaces rest valid)
  | simple lex => exact .single (reads_string spaces rest lex (by decide))
  | lang lex tag dir =>
      have tagged := @reads_tag trusted _ dir valid rest
      rw [writeTerm, List.append_assoc, List.append_assoc]
      rw [List.append_assoc] at tagged
      exact .cons (reads_string spaces _ lex (by decide)) (.single tagged)
  | datatyped lex dt =>
      obtain ⟨iriOk, ordinary⟩ := valid
      have caret : strBytes "^^<" = [0x5E, 0x5E, 0x3C] := by decide +kernel
      have plain : dt ≠ Graphy.Vocab.xsdString := fun same => ordinary (.inl same)
      have typed := @reads_iri trusted [] spaces_nil (0x20 :: rest) _
        (clean_of_validateIri iriOk)
      rw [writeTerm, if_pos plain, caret]
      have shape : writeString lex ++ ([0x5E, 0x5E, 0x3C] ++ strBytes dt ++ [0x3E]) ++ 0x20 :: rest =
          writeString lex ++
            0x5E :: (0x5E :: ([] ++ (0x3C :: strBytes dt ++ [0x3E] ++ 0x20 :: rest))) := by
        simp
      rw [shape]
      exact .cons (reads_string spaces _ lex (by decide))
        (.cons (reads_caret _) (.single typed))
  | tripleTerm s p o ihS ihP ihO =>
      obtain ⟨-, validS, validP, validO⟩ := valid
      have opens : strBytes "<<( " = [0x3C, 0x3C, 0x28, 0x20] := by decide +kernel
      have closes : strBytes " )>>" = [0x20, 0x29, 0x3E, 0x3E] := by decide +kernel
      have shape : writeTerm (.tripleTerm s p o) ++ 0x20 :: rest =
          0x3C :: 0x3C :: 0x28 :: ([0x20] ++ (writeTerm s ++ 0x20 :: (writeTerm p ++
            0x20 :: (writeTerm o ++ 0x20 :: 0x29 :: 0x3E :: 0x3E :: 0x20 :: rest)))) := by
        rw [writeTerm, opens, closes]
        simp
      rw [shape]
      refine .cons (reads_open _ spaces) ((ihS rfl validS _).append ?_)
      refine (ihP spaces_blank validP _).append ?_
      refine (ihO spaces_blank validO _).append ?_
      exact .single (reads_close _)

end Graphy.Turtle
