import Mathlib.Data.List.Chain
import Graphy.Core.Proofs.Concise
import Graphy.Core.Proofs.Text

/-!
# Decoding what the encoders write

The encoding of a valid term is accepted and gives the term back, as long as the lengths of
its components fit the varints.
-/

namespace Graphy

namespace Varint

/-- What is written is read back, whatever follows it. -/
theorem readFrom_write {v : Nat} (acc : Nat) {i : Nat} (le : i ≤ 9) (fits : v < 2 ^ (64 - 7 * i))
    (rest : Bytes) : readFrom acc i (write v ++ rest) =
      some (acc + v * 2 ^ (7 * i), i + (write v).length) := by
  induction v using Nat.strongRecOn generalizing acc i with
  | ind v ih =>
      rw [write]
      by_cases small : v / 128 = 0
      · have low : (UInt8.ofNat (v % 128)).toNat = v := by
          rw [UInt8.toNat_ofNat', Nat.mod_eq_of_lt (by omega), Nat.mod_eq_of_lt (by omega)]
        have last : ¬ (i = 9 ∧ 1 < v) := by
          rintro ⟨rfl, large⟩
          omega
        rw [if_pos small]
        simp only [List.cons_append, List.nil_append, readFrom, low]
        rw [if_neg (by omega), if_pos (by omega), if_neg last, Nat.mod_eq_of_lt (by omega)]
        simp
      · have group : (UInt8.ofNat (v % 128 + 128)).toNat = v % 128 + 128 := by
          rw [UInt8.toNat_ofNat', Nat.mod_eq_of_lt (by omega)]
        have inner : i ≤ 8 := by
          by_contra last
          have nine : i = 9 := by omega
          subst nine
          omega
        have shift : 2 ^ (64 - 7 * i) = 128 * 2 ^ (64 - 7 * (i + 1)) := by
          rw [show 64 - 7 * i = 7 + (64 - 7 * (i + 1)) by omega, Nat.pow_add]
        have step : 2 ^ (7 * (i + 1)) = 128 * 2 ^ (7 * i) := by
          rw [show 7 * (i + 1) = 7 + 7 * i by omega, Nat.pow_add]
        have next := ih (v / 128) (by omega) (acc + (v % 128 + 128) % 128 * 2 ^ (7 * i))
          (show i + 1 ≤ 9 by omega) (by omega)
        rw [if_neg small]
        simp only [List.cons_append, readFrom, group]
        rw [if_neg (by omega), if_neg (by omega), next, step, List.length_cons]
        have value : (v % 128 + 128) % 128 * 2 ^ (7 * i) + v / 128 * (128 * 2 ^ (7 * i)) =
            v * 2 ^ (7 * i) := by
          rw [← Nat.mul_assoc, ← Nat.add_mul]
          congr 1
          omega
        rw [Nat.add_assoc, value]
        congr 2
        omega

theorem read_write {v : Nat} (fits : v < 2 ^ 64) (rest : Bytes) :
    read (write v ++ rest) = some (v, (write v).length) := by
  have whole := readFrom_write 0 (Nat.zero_le 9) fits rest
  simpa [read] using whole

end Varint

namespace Concise

/-! ## Literals -/

theorem splitQuote_of_not_mem (missing : String) {head : Bytes} (lex : Bytes)
    (none_ : (0x22 : UInt8) ∉ head) : splitQuote missing (head ++ 0x22 :: lex) = .ok (head, lex) := by
  unfold splitQuote
  rw [idxOf?_append_of_not_mem none_]
  simp

/-- The characters of a valid tag. -/
theorem tag_chars {tag : String} (valid : validateLangTagNormalized tag = .ok ()) :
    ∀ c ∈ tag.toList, isAsciiAlphanumeric c = true ∨ c = '-' := by
  obtain ⟨primary, subs, parts, okPrimary, okSubs, -⟩ := langTag_parts valid
  intro c mem
  rw [parts, List.mem_append, List.mem_flatMap] at mem
  rcases mem with mem | ⟨sub, inSubs, mem⟩
  · have alpha := List.all_eq_true.mp okPrimary.chars c mem
    rw [isAsciiAlphabetic_iff] at alpha
    exact .inl ((isAsciiAlphanumeric_iff c).mpr (.inl alpha))
  · rcases List.mem_cons.mp mem with rfl | mem
    · exact .inr rfl
    · exact .inl (List.all_eq_true.mp (okSubs sub inSubs).chars c mem)

theorem quote_not_mem_tag {tag : String} (valid : validateLangTagNormalized tag = .ok ()) :
    (0x22 : UInt8) ∉ strBytes tag := by
  intro mem
  rcases byte_of_mem mem with high | ⟨c, inTag, same⟩
  · exact absurd high (by decide)
  · have quote : c.toNat = 0x22 := same
    rcases tag_chars valid c inTag with alnum | rfl
    · rw [isAsciiAlphanumeric_iff] at alnum
      omega
    · exact absurd quote (by decide)

theorem find?_reverse_range {p : Nat → Bool} {n i : Nat} (here : p i = true) (lt : i < n)
    (above : ∀ j, i < j → p j = false) : (List.range n).reverse.find? p = some i := by
  induction n with
  | zero => omega
  | succ n ih =>
      rw [List.range_succ, List.reverse_concat]
      by_cases last : i = n
      · subst last
        exact List.find?_cons_of_pos here
      · rw [List.find?_cons_of_neg (by rw [above n (by omega)]; decide)]
        exact ih (by omega)

/-- No two dashes stand next to each other. -/
def Apart (a b : UInt8) : Prop := ¬ (a = 0x2D ∧ b = 0x2D)

theorem apart_dashless {part : Bytes} (dashless : (0x2D : UInt8) ∉ part) :
    List.IsChain Apart part := by
  induction part with
  | nil => exact .nil
  | cons b part ih =>
      rw [List.mem_cons, not_or] at dashless
      refine List.isChain_cons.mpr ⟨fun c _ both => dashless.1 both.1.symm, ih dashless.2⟩

/-- By induction on the subtags, none of which is empty or has a dash. -/
theorem apart_parts {part : Bytes} (dashless : (0x2D : UInt8) ∉ part) {subs : List Bytes}
    (ok : ∀ sub ∈ subs, sub ≠ [] ∧ (0x2D : UInt8) ∉ sub) :
    List.IsChain Apart (part ++ subs.flatMap (0x2D :: ·)) := by
  induction subs generalizing part with
  | nil =>
      rw [List.flatMap_nil, List.append_nil]
      exact apart_dashless dashless
  | cons sub subs ih =>
      obtain ⟨some_, subDashless⟩ := ok sub (List.mem_cons_self ..)
      have rest := ih subDashless fun sub mem => ok sub (List.mem_cons_of_mem _ mem)
      rw [List.flatMap_cons, List.cons_append]
      refine List.isChain_append.mpr ⟨apart_dashless dashless, List.isChain_cons.mpr ⟨?_, rest⟩, ?_⟩
      · intro b first both
        cases sub with
        | nil => exact some_ rfl
        | cons c sub =>
            cases first
            exact subDashless (both.2 ▸ List.mem_cons_self ..)
      · intro b last c _ both
        exact dashless (both.1 ▸ List.mem_of_getLast? last)

theorem dash_not_mem {cs : List Char} (all : ∀ c ∈ cs, isAsciiAlphanumeric c = true) :
    (0x2D : UInt8) ∉ Utf8.encode cs := by
  intro mem
  obtain ⟨c, inText, same⟩ := (Utf8.mem_encode (by decide)).mp mem
  have alnum := all c inText
  have dash : c.toNat = 0x2D := same
  rw [isAsciiAlphanumeric_iff] at alnum
  omega

theorem encode_subtags (subs : List (List Char)) : Utf8.encode (subs.flatMap ('-' :: ·)) =
    (subs.map Utf8.encode).flatMap (0x2D :: ·) := by
  have dash : String.utf8EncodeChar '-' = [0x2D] := by decide
  induction subs with
  | nil => rfl
  | cons sub subs ih =>
      rw [List.flatMap_cons, List.cons_append, Utf8.encode_cons, Utf8.encode_append, ih, dash,
        List.map_cons, List.flatMap_cons]
      rfl

theorem rfindDashes_tag {tag : String} (valid : validateLangTagNormalized tag = .ok ()) :
    rfindDashes (strBytes tag) = none := by
  obtain ⟨primary, subs, parts, okPrimary, okSubs, -⟩ := langTag_parts valid
  have primaryDashless : (0x2D : UInt8) ∉ Utf8.encode primary := by
    refine dash_not_mem fun c mem => ?_
    have alpha := List.all_eq_true.mp okPrimary.chars c mem
    rw [isAsciiAlphabetic_iff] at alpha
    exact (isAsciiAlphanumeric_iff c).mpr (.inl alpha)
  have chain : List.IsChain Apart (strBytes tag) := by
    rw [strBytes_eq_encode, parts, Utf8.encode_append, encode_subtags]
    refine apart_parts primaryDashless fun sub mem => ?_
    obtain ⟨sub, inSubs, rfl⟩ := List.mem_map.mp mem
    have ok := okSubs sub inSubs
    refine ⟨fun none => ok.some (Utf8.encode_inj (none.trans Utf8.encode_nil.symm)), ?_⟩
    exact dash_not_mem (List.all_eq_true.mp ok.chars)
  unfold rfindDashes
  rw [List.find?_eq_none]
  intro i mem both
  rw [Bool.and_eq_true, beq_iff_eq, beq_iff_eq] at both
  obtain ⟨lt, first⟩ := List.getElem?_eq_some_iff.mp both.1
  obtain ⟨lt', second⟩ := List.getElem?_eq_some_iff.mp both.2
  exact List.isChain_iff_getElem.mp chain i lt' ⟨first, second⟩

theorem rfindDashes_directed (tag : Bytes) {word : Bytes} (dashless : (0x2D : UInt8) ∉ word) :
    rfindDashes (tag ++ 0x2D :: 0x2D :: word) = some tag.length := by
  unfold rfindDashes
  refine find?_reverse_range ?_ (by simp) ?_
  · simp
  · intro j behind
    have second : (tag ++ 0x2D :: 0x2D :: word)[j + 1]? = word[j - 1 - tag.length]? := by
      rw [List.getElem?_append_right (by omega),
        show j + 1 - tag.length = j - 1 - tag.length + 1 + 1 by omega,
        List.getElem?_cons_succ, List.getElem?_cons_succ]
    rw [second, Bool.and_eq_false_iff]
    right
    cases at_ : word[j - 1 - tag.length]? with
    | none => rfl
    | some b =>
        refine beq_eq_false_iff_ne.mpr fun same => dashless ?_
        rw [← Option.some.inj same]
        exact List.mem_of_getElem? at_

theorem splitDirection_encoded {tag : String} (valid : validateLangTagNormalized tag = .ok ())
    (dir : Option Dir) : splitDirection (strBytes tag ++ dirBytes dir) = .ok (strBytes tag, dir) := by
  unfold splitDirection
  cases dir with
  | none => rw [dirBytes, List.append_nil, rfindDashes_tag valid]
  | some d =>
      cases d with
      | ltr =>
          have spelled : dirBytes (some .ltr) = 0x2D :: 0x2D :: strBytes "ltr" := by decide +kernel
          rw [spelled, rfindDashes_directed _ (by decide +kernel)]
          simp
      | rtl =>
          have spelled : dirBytes (some .rtl) = 0x2D :: 0x2D :: strBytes "rtl" := by decide +kernel
          have other : strBytes "rtl" ≠ strBytes "ltr" := by decide +kernel
          rw [spelled, rfindDashes_directed _ (by decide +kernel)]
          simp [other]

theorem decodeLang_encoded (lex : String) {tag : String}
    (valid : validateLangTagNormalized tag = .ok ()) (dir : Option Dir) :
    decodeLang (strBytes tag ++ dirBytes dir ++ 0x22 :: strBytes lex) = .ok (.lang lex tag dir) := by
  have suffix : ∃ word, dirBytes dir = strBytes word ∧ (0x22 : UInt8) ∉ dirBytes dir := by
    cases dir with
    | none => exact ⟨"", rfl, by simp [dirBytes]⟩
    | some d => exact ⟨dirSuffix d, rfl, by cases d <;> decide +kernel⟩
  obtain ⟨word, spelled, quoteless⟩ := suffix
  have none_ : (0x22 : UInt8) ∉ strBytes tag ++ dirBytes dir := by
    rw [List.mem_append, not_or]
    exact ⟨quote_not_mem_tag valid, quoteless⟩
  have text : utf8 (strBytes tag ++ dirBytes dir) = .ok (tag ++ word) := by
    rw [spelled, ← strBytes_append, utf8_strBytes]
  unfold decodeLang
  simp only [splitQuote_of_not_mem _ _ none_, text, splitDirection_encoded valid, utf8_strBytes,
    valid, bind, Except.bind]
  rfl

theorem decodeDatatype_encoded (lex : String) {dt : String} (valid : (TermView.datatyped lex dt).Valid) :
    decodeDatatype (0x3E :: (strBytes dt ++ 0x22 :: strBytes lex)) = .ok (.datatyped lex dt) := by
  obtain ⟨iri, ordinary⟩ := valid
  have none_ : (0x22 : UInt8) ∉ strBytes dt := by
    intro mem
    rcases byte_of_mem mem with high | ⟨c, inText, same⟩
    · exact absurd high (by decide)
    · have clean := clean_of_validateIri iri c inText
      have quote : c.toNat = 0x22 := same
      rw [← Bool.not_eq_true, isForbidden_iff, quote] at clean
      exact clean (by simp)
  unfold decodeDatatype
  simp only [splitQuote_of_not_mem _ _ none_, utf8_strBytes, iri, bind, Except.bind]
  rw [if_neg (by simp), if_neg ordinary]
  rfl

/-! ## Terms -/

theorem splitPart_write {part : Bytes} (fits : part.length < 2 ^ 64) (rest : Bytes) :
    splitPart (Varint.write part.length ++ part ++ rest) = some (part, rest) := by
  unfold splitPart
  rw [List.append_assoc, Varint.read_write fits]
  simp

theorem decodePart_write {dec : Bytes → Except TermError TermRef} {pos : Nat} {part : Bytes}
    {t : TermRef} (fits : part.length < 2 ^ 64) (decoded : dec part = .ok t)
    (positioned : checkPosition pos t = .ok ()) (rest : Bytes) :
    decodePart dec pos (Varint.write part.length ++ part ++ rest) = .ok rest := by
  unfold decodePart
  rw [splitPart_write fits]
  simp only [decoded, positioned, bind, Except.bind]
  rfl

/-- The term of a decoded view, with the positions it may stand in. -/
structure Decodes (levels : Nat) (v : TermView) (t : TermRef) : Prop where
  decoded : decodeAt levels (reencode v) = .ok t
  viewed : viewAt levels t = some v
  node : v.isNode = true → checkPosition 0 t = .ok ()
  iri : v.isIri = true → checkPosition 1 t = .ok ()

/-- By induction on the term: its encoding is accepted and has the term as its view. -/
theorem decodes_reencode {v : TermView} {levels : Nat} (le : levels ≤ maxTripleTermDepth + 1)
    (depth : v.depth < levels) (valid : v.Valid) (sized : v.Sized) :
    ∃ t, Decodes levels v t := by
  induction v generalizing levels with
  | iri i =>
      obtain ⟨levels, rfl⟩ := Nat.exists_eq_succ_of_ne_zero (Nat.ne_zero_of_lt depth)
      have iri : Iri.validateIri i = .ok () := valid
      refine ⟨.iri i, ?_, rfl, fun _ => rfl, fun _ => rfl⟩
      simp [decodeAt, reencode, encodeIri, bind, Except.bind, iri]
      rfl
  | blankNode label =>
      obtain ⟨levels, rfl⟩ := Nat.exists_eq_succ_of_ne_zero (Nat.ne_zero_of_lt depth)
      have ok : validateBlankLabel label = .ok () := valid
      refine ⟨.blankNode label, ?_, rfl, fun _ => rfl, Bool.noConfusion⟩
      simp [decodeAt, reencode, encodeBlank, bind, Except.bind, ok]
      rfl
  | simple lex =>
      obtain ⟨levels, rfl⟩ := Nat.exists_eq_succ_of_ne_zero (Nat.ne_zero_of_lt depth)
      refine ⟨.simple lex, ?_, rfl, Bool.noConfusion, Bool.noConfusion⟩
      simp [decodeAt, reencode, encodeSimple, bind, Except.bind]
      rfl
  | lang lex tag dir =>
      obtain ⟨levels, rfl⟩ := Nat.exists_eq_succ_of_ne_zero (Nat.ne_zero_of_lt depth)
      refine ⟨.lang lex tag dir, ?_, rfl, Bool.noConfusion, Bool.noConfusion⟩
      have spelled : reencode (.lang lex tag dir) =
          0x40 :: (strBytes tag ++ dirBytes dir ++ 0x22 :: strBytes lex) := by
        cases dir <;> simp [reencode, encodeLang, dirBytes]
      rw [spelled]
      exact decodeLang_encoded lex valid dir
  | datatyped lex dt =>
      obtain ⟨levels, rfl⟩ := Nat.exists_eq_succ_of_ne_zero (Nat.ne_zero_of_lt depth)
      refine ⟨.datatyped lex dt, ?_, rfl, Bool.noConfusion, Bool.noConfusion⟩
      have spelled : reencode (.datatyped lex dt) =
          0x5E :: (0x3E :: (strBytes dt ++ 0x22 :: strBytes lex)) := by
        simp [reencode, encodeDatatype]
      rw [spelled]
      exact decodeDatatype_encoded lex valid
  | tripleTerm s p o ihS ihP ihO =>
      obtain ⟨levels, rfl⟩ := Nat.exists_eq_succ_of_ne_zero (Nat.ne_zero_of_lt depth)
      obtain ⟨⟨nodeS, iriP⟩, validS, validP, validO⟩ := valid
      obtain ⟨⟨fitsS, fitsP, fitsO⟩, sizedS, sizedP, sizedO⟩ := sized
      simp only [TermView.depth] at depth
      have le' : levels ≤ maxTripleTermDepth + 1 := by omega
      obtain ⟨ts, isS⟩ := ihS le' (by omega) validS sizedS
      obtain ⟨tp, isP⟩ := ihP le' (by omega) validP sizedP
      obtain ⟨tObj, isO⟩ := ihO le' (by omega) validO sizedO
      have spelled : reencode (.tripleTerm s p o) = 0x09 ::
          (Varint.write (reencode s).length ++ reencode s ++
            (Varint.write (reencode p).length ++ reencode p ++
              (Varint.write (reencode o).length ++ reencode o ++ []))) := by
        simp [reencode, encodeTripleTerm]
      have any : checkPosition 2 tObj = .ok () := by cases tObj <;> rfl
      refine ⟨.tripleTerm (Varint.write (reencode s).length ++ reencode s ++
        (Varint.write (reencode p).length ++ reencode p ++
          (Varint.write (reencode o).length ++ reencode o ++ []))), ?_, ?_, Bool.noConfusion, Bool.noConfusion⟩
      · rw [spelled]
        exact decodeAt_triple.mpr ⟨rfl, _, _,
          decodePart_write fitsS isS.decoded (isS.node nodeS) _,
          decodePart_write fitsP isP.decoded (isP.iri iriP) _,
          decodePart_write fitsO isO.decoded any []⟩
      · have atS : (decode (reencode s)).toOption = some ts := by
          rw [decode, decodeAt_le le' isS.decoded]
          rfl
        have atP : (decode (reencode p)).toOption = some tp := by
          rw [decode, decodeAt_le le' isP.decoded]
          rfl
        have atO : (decode (reencode o)).toOption = some tObj := by
          rw [decode, decodeAt_le le' isO.decoded]
          rfl
        simp only [viewAt, component, splitPart_write fitsS, splitPart_write fitsP,
          splitPart_write fitsO, Option.bind_eq_bind, Option.bind_some, Option.pure_def, atS, atP,
          atO, isS.viewed, isP.viewed, isO.viewed]

theorem decode_encodeSimple (lex : String) : decode (encodeSimple lex) = .ok (.simple lex) := by
  simp [decode, decodeAt, encodeSimple, utf8_strBytes]

/-- What is accepted is accepted again in its canonical encoding. -/
theorem decode_reencode {bytes : Bytes} {t : TermRef} (h : decode bytes = .ok t) {v : TermView}
    (viewed : view t = some v) : ∃ t', decode (reencode v) = .ok t' ∧ view t' = some v := by
  obtain ⟨v', viewed', -, valid, depth, sized⟩ := viewAt_of_decodeAt (Nat.le_refl _) h
  cases viewed.symm.trans viewed'
  obtain ⟨t', decodes⟩ := decodes_reencode (Nat.le_refl _) depth valid sized
  exact ⟨t', decodes.decoded, decodes.viewed⟩

end Concise

end Graphy
