import Graphy.Core.Spelling
import Graphy.Core.Proofs.Encode
import Graphy.Core.Proofs.Inline

/-!
# Reading spellings, and the inline codec

Bytes that read are a plain term or a triple term of components that read, and the
encoder's spelling is the shortest.  A literal without a language tag is inlined by its
spelling and datatype, and an inline value is written back as the literal of its
canonical spelling.
-/

namespace Graphy

/-! ## Reading -/

namespace Term

open Concise

/-- Levels of nesting of a term. -/
def depth : Term → Nat
  | .atom _ => 0
  | .tripleTerm _ _ o => o.depth + 1

/-- Bytes that read are a plain term, or a triple term of components that decode. -/
theorem readAt_cases {levels : Nat} {b : Bytes} {t : Term} (h : readAt (levels + 1) b = some t) :
    (t = .atom b ∧ b.head? ≠ some 0x09) ∨
      ∃ payload s p ob o, b = 0x09 :: payload ∧ Components (decodeAt levels) payload s p ob ∧
        readAt levels ob = some o ∧ t = .tripleTerm s p o := by
  simp only [readAt] at h
  cases decoded : decodeAt (levels + 1) b with
  | error e =>
      rw [decoded] at h
      cases h
  | ok r =>
      rw [decoded] at h
      obtain ⟨sig, rest, rfl, ⟨plain, v, leaf, -, -⟩ | ⟨rfl, rfl, s, p, ob, parts⟩⟩ :=
        decodeAt_cases decoded
      · left
        have whole : t = .atom (sig :: rest) := by
          cases r with
          | tripleTerm payload => cases leaf
          | iri | blankNode | simple | lang | datatyped => exact (Option.some.inj h).symm
        exact ⟨whole, by simpa using plain⟩
      · right
        obtain ⟨afterS, afterP, splitS, splitP, splitO⟩ := parts.parts
        simp only [splitS, splitP, splitO, Option.bind_eq_bind, Option.bind_some] at h
        obtain ⟨o, inner, eq⟩ := Option.bind_eq_some_iff.mp h
        exact ⟨rest, s, p, ob, o, rfl, parts, inner, (Option.some.inj eq).symm⟩

theorem readAt_succ {levels : Nat} {b : Bytes} {t : Term} (h : readAt levels b = some t) :
    readAt (levels + 1) b = some t := by
  induction levels generalizing b t with
  | zero => cases h
  | succ levels ih =>
      rcases readAt_cases h with ⟨rfl, -⟩ | ⟨payload, s, p, ob, o, rfl, parts, inner, rfl⟩
      · simp only [readAt] at h ⊢
        cases decoded : decodeAt (levels + 1) b with
        | error e =>
            rw [decoded] at h
            cases h
        | ok r =>
            rw [decodeAt_succ decoded]
            cases r with
            | tripleTerm payload =>
                rw [decoded] at h
                simp only [Option.bind_eq_bind, Option.bind_eq_some_iff] at h
                obtain ⟨_, _, _, _, _, _, _, _, eq⟩ := h
                cases eq
            | iri | blankNode | simple | lang | datatyped => rfl
      · cases decoded : decodeAt (levels + 1) (0x09 :: payload) with
        | error e =>
            rw [readAt, decoded] at h
            cases h
        | ok r =>
            obtain ⟨rfl, -⟩ := decodeAt_triple.mp decoded
            obtain ⟨afterS, afterP, splitS, splitP, splitO⟩ := parts.parts
            have deeper := ih inner
            rw [readAt, decodeAt_succ decoded]
            simp only [splitS, splitP, splitO, deeper, Option.bind_eq_bind, Option.bind_some]
            rfl

theorem readAt_le {n m : Nat} {b : Bytes} {t : Term} (le : n ≤ m) (h : readAt n b = some t) :
    readAt m b = some t := by
  induction le with
  | refl => exact h
  | step _ ih => exact readAt_succ ih

/-- No spelling of a term is shorter than the encoder's. -/
theorem length_bytes_le {levels : Nat} {b : Bytes} {t : Term} (h : readAt levels b = some t) :
    t.bytes.length ≤ b.length := by
  induction levels generalizing b t with
  | zero => cases h
  | succ levels ih =>
      rcases readAt_cases h with ⟨rfl, -⟩ | ⟨payload, s, p, ob, o, rfl, parts, inner, rfl⟩
      · exact Nat.le_refl _
      · obtain ⟨afterS, afterP, splitS, splitP, splitO⟩ := parts.parts
        obtain ⟨ls, rfl, spellsS, -⟩ := splitPart_lengthBytes splitS
        obtain ⟨lp, rfl, spellsP, -⟩ := splitPart_lengthBytes splitP
        obtain ⟨lo, rfl, spellsO, -⟩ := splitPart_lengthBytes splitO
        have shorter := ih inner
        have hs := spellsS.length_write_le
        have hp := spellsP.length_write_le
        have ho := (Varint.length_write_mono shorter).trans spellsO.length_write_le
        simp only [bytes, encodeTripleTerm, List.length_cons, List.length_append, List.length_nil]
        omega

/-- The components of a triple term in the encoder's spelling are in it too. -/
theorem object_bytes_of_encoded {levels : Nat} {payload s p ob : Bytes} {o : Term}
    (parts : Components (decodeAt levels) payload s p ob) (inner : readAt levels ob = some o)
    (spelled : encodeTripleTerm s p o.bytes = 0x09 :: payload) : o.bytes = ob := by
  obtain ⟨afterS, afterP, splitS, splitP, splitO⟩ := parts.parts
  obtain ⟨fitsS, fitsP, fitsO⟩ := parts.fits
  have whole := (List.cons.inj spelled).2
  rw [← whole, List.append_assoc, splitPart_write fitsS] at splitS
  cases splitS
  rw [splitPart_write fitsP] at splitP
  cases splitP
  have fits : o.bytes.length < 2 ^ 64 := (length_bytes_le inner).trans_lt fitsO
  have last := splitPart_write fits []
  rw [List.append_nil, splitO] at last
  exact (Prod.mk.inj (Option.some.inj last)).1.symm

/-- A triple term that is spelled as the encoder does: its payload, with components that
decode, the last of them in the encoder's spelling. -/
theorem components_of_spelled {s p : Bytes} {o : Term} {b : Bytes}
    (read_ : read b = some (.tripleTerm s p o)) (spelled : (Term.tripleTerm s p o).bytes = b) :
    ∃ payload, b = 0x09 :: payload ∧
      Components (decodeAt maxTripleTermDepth) payload s p o.bytes ∧ read o.bytes = some o := by
  rcases readAt_cases read_ with ⟨eq, -⟩ | ⟨payload, s', p', ob, o', rfl, parts, inner, eq⟩
  · cases eq
  · cases eq
    obtain rfl := object_bytes_of_encoded parts inner spelled
    exact ⟨payload, rfl, parts, readAt_succ inner⟩

/-- The sigil tells plain terms from triple terms. -/
theorem atom_of_read {b : Bytes} {t : Term} (h : read b = some t) (plain : b.head? ≠ some 0x09) :
    t = .atom b := by
  rcases readAt_cases h with ⟨rfl, -⟩ | ⟨payload, _, _, _, _, rfl, -⟩
  · rfl
  · exact absurd rfl plain

theorem tripleTerm_of_read {b : Bytes} {t : Term} (h : read b = some t)
    (triple : b.head? = some 0x09) : ∃ s p o, t = .tripleTerm s p o := by
  rcases readAt_cases h with ⟨-, plain⟩ | ⟨payload, s, p, _, o, -, -, -, rfl⟩
  · exact absurd triple plain
  · exact ⟨s, p, o, rfl⟩

end Term

/-! ## Doubles are words -/

namespace Ieee

theorem infinity_le_nan (f : Format) : f.infinity ≤ f.nan := Nat.le_add_right _ _

theorem round_le_nan (f : Format) (num den : Nat) : f.round num den ≤ f.nan :=
  (Nat.min_le_left _ _).trans (infinity_le_nan f)

theorem signed_lt {negative : Bool} {magnitude : Nat} (h : magnitude ≤ double.nan) :
    double.signed negative magnitude < 2 ^ 64 := by
  have half : double.signBit = 2 ^ 63 := rfl
  have small : double.nan < 2 ^ 63 := by decide +kernel
  have signs : negative.toNat ≤ 1 := Bool.toNat_le negative
  simp only [Format.signed, half]
  omega

theorem widen_lt (bits : Nat) : widen bits < 2 ^ 64 := by
  refine signed_lt ?_
  split
  · exact Nat.le_refl _
  · split
    · exact infinity_le_nan double
    · exact round_le_nan double _ _

end Ieee

theorem parseMagnitude_le {f : Ieee.Format} {lex : List Char} {magnitude : Nat}
    (h : parseMagnitude f lex = some magnitude) : magnitude ≤ f.nan := by
  unfold parseMagnitude at h
  split at h
  · cases h
    exact Ieee.round_le_nan f _ _
  · simp only at h
    split at h
    · cases h
      exact Ieee.infinity_le_nan f
    · split at h
      · cases h
        exact Nat.le_refl _
      · cases h

theorem parseDouble_lt {lex : List Char} {bits : Nat} (h : parseDouble lex = some bits) :
    bits < 2 ^ 64 := by
  obtain ⟨magnitude, read, rfl⟩ := Option.map_eq_some_iff.mp h
  exact Ieee.signed_lt (parseMagnitude_le read)

theorem parseFloat_lt {lex : List Char} {bits : Nat} (h : parseFloat lex = some bits) :
    bits < 2 ^ 64 := by
  obtain ⟨single, -, rfl⟩ := Option.map_eq_some_iff.mp h
  exact Ieee.widen_lt single

section Codec

variable [FloatWriter]

/-! ## Spellings that inline -/

omit [FloatWriter] in
theorem inRange_of_double {bits : Nat} {declaredFloat : Bool} {id : Col} (small : bits < 2 ^ 64)
    (h : (InlineValue.double bits declaredFloat).inline = some id) :
    (InlineValue.double bits declaredFloat).InRange := by
  refine ⟨small, ?_⟩
  by_contra odd
  have refused : (InlineValue.double bits declaredFloat).inline = none := if_pos odd
  rw [refused] at h
  cases h

omit [FloatWriter] in
/-- A value that is read has the datatype asked for, and is in range when it inlines. -/
theorem parseInline_inRange {lex : List Char} {dt : String} {v : InlineValue} {id : Col}
    (h : parseInline lex dt = some v) (run : v.inline = some id) : v.datatypeIri = dt ∧ v.InRange := by
  by_cases exact_ : dt ∈ Vocab.exact
  · obtain ⟨datatype, -, range⟩ := parseInline_spec exact_ h
    exact ⟨datatype, range id run⟩
  · simp only [Vocab.exact, List.mem_cons, List.not_mem_nil, or_false, not_or] at exact_
    obtain ⟨integer, decimal, boolean, date, dateTime⟩ := exact_
    rw [parseInline, if_neg integer, if_neg decimal] at h
    split at h
    · rename_i double
      obtain ⟨bits, read, rfl⟩ := Option.map_eq_some_iff.mp h
      exact ⟨double.symm, inRange_of_double (parseDouble_lt read) run⟩
    · split at h
      · rename_i float
        obtain ⟨bits, read, rfl⟩ := Option.map_eq_some_iff.mp h
        exact ⟨float.symm, inRange_of_double (parseFloat_lt read) run⟩
      · cases h

/-- A spelling that inlines is given back by its id, with its datatype. -/
theorem decode_tryInline {lex : List Char} {dt : String} {id : Col}
    (h : Col.tryInline lex dt = some id) :
    ∃ v, id.decode = some v ∧ v.canonicalLexical = lex ∧ v.datatypeIri = dt := by
  unfold Col.tryInline at h
  split at h
  · cases h
  · rename_i v read
    split at h
    · cases h
    · rename_i same
      obtain ⟨datatype, range⟩ := parseInline_inRange read h
      obtain ⟨id', run, back⟩ := InlineValue.decode_inline range
      rw [h] at run
      cases run
      exact ⟨v, back, not_not.mp same, datatype⟩

omit [FloatWriter] in
theorem tag_inline {v : InlineValue} {id : Col} (h : v.inline = some id) :
    1 ≤ id.tag ∧ id.tag ≤ 6 := by
  cases v with
  | boolean b =>
      cases h
      simp
  | integer | decimal | double | dateTime =>
      simp only [InlineValue.inline] at h
      split at h
      all_goals cases h
      all_goals simp

theorem tag_tryInline {lex : List Char} {dt : String} {id : Col}
    (h : Col.tryInline lex dt = some id) : 1 ≤ id.tag ∧ id.tag ≤ 6 := by
  unfold Col.tryInline at h
  split at h
  · cases h
  · split at h
    · cases h
    · exact tag_inline h

/-! ## The codec -/

/-- The id of a literal without a language tag. -/
def inlineLiteral (b : Bytes) : Option Col :=
  match Concise.decode b with
  | .ok (.simple lex) => Col.tryInline lex.toList Vocab.xsdString
  | .ok (.datatyped lex dt) => Col.tryInline lex.toList dt
  | _ => none

/-- The literal of an inline value; none of their datatypes is the string's. -/
def literalOf (v : InlineValue) : Bytes :=
  Concise.encodeDatatype (String.ofList v.canonicalLexical) v.datatypeIri

theorem tryInline_string (lex : List Char) : Col.tryInline lex Vocab.xsdString = none := rfl

/-- What inlines is a datatyped literal, in the encoder's spelling. -/
theorem inlineLiteral_spec {b : Bytes} {id : Col} (h : inlineLiteral b = some id) :
    ∃ lex dt, Concise.decode b = .ok (.datatyped lex dt) ∧ Concise.encodeDatatype lex dt = b ∧
      Col.tryInline lex.toList dt = some id := by
  unfold inlineLiteral at h
  split at h
  · cases h
  · rename_i lex dt decoded
    refine ⟨lex, dt, decoded, ?_, h⟩
    obtain ⟨sig, rest, rfl, ⟨-, v, leaf, -, spelled⟩ | ⟨-, triple, -⟩⟩ :=
      Concise.decodeAt_cases decoded
    · cases leaf
      exact spelled
    · cases triple
  · cases h

/-- The store's own codec. -/
@[reducible] def inlineCodec : InlineCodec where
  tryInline := inlineLiteral
  inlineConcise id := id.decode.map literalOf
  tag_tryInline h := by
    obtain ⟨lex, dt, -, -, run⟩ := inlineLiteral_spec h
    exact tag_tryInline run
  kind_tryInline h := by
    obtain ⟨lex, dt, -, rfl, -⟩ := inlineLiteral_spec h
    rfl
  read_tryInline h := by
    obtain ⟨lex, dt, decoded, -, -⟩ := inlineLiteral_spec h
    simp only [Concise.decode] at decoded
    simp only [Term.read, Term.readAt, decoded]
  inlineConcise_tryInline h := by
    obtain ⟨lex, dt, -, rfl, run⟩ := inlineLiteral_spec h
    obtain ⟨v, back, spelling, rfl⟩ := decode_tryInline run
    simp only [back, Option.map_some, literalOf, spelling, String.ofList_toList]

end Codec

end Graphy
