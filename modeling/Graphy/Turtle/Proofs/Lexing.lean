import Graphy.Core.Proofs.Text
import Graphy.Turtle.Lexer
import Graphy.Turtle.Writer

/-!
# What the tokenizer reads back

The tokens of what the writer prints: an IRI, a label, a string or a tag is scanned to its
end, whatever follows it in the line, and its text is the term's.
-/

namespace Graphy.Turtle

/-! ## Text -/

@[simp] theorem textOf_strBytes (s : String) : textOf (strBytes s) = s := by
  unfold textOf
  rw [utf8_strBytes]
  rfl

theorem charWidth_ascii {b : UInt8} (h : b.toNat < 128) : charWidth b = some 1 := by
  unfold charWidth
  rw [if_pos (UInt8.lt_iff_toNat_lt.mpr h)]

theorem charWidth_lead {size : Nat} {b : UInt8} (h : Utf8.Lead size b.toNat) :
    charWidth b = some size := by
  unfold charWidth
  simp only [UInt8.lt_iff_toNat_lt, UInt8.le_iff_toNat_le, UInt8.reduceToNat]
  generalize b.toNat = n at h
  cases h with
  | two h => rw [if_neg (by omega), if_pos (by omega)]
  | three h => rw [if_neg (by omega), if_neg (by omega), if_pos (by omega)]
  | four h => rw [if_neg (by omega), if_neg (by omega), if_neg (by omega), if_pos (by omega)]

/-- The character that the bytes open with is decoded, whatever follows it. -/
theorem charAt_encode (eof : Bool) (off : Nat) (c : Char) (rest : Bytes) :
    charAt eof off (String.utf8EncodeChar c ++ rest) = .done (c, c.utf8Size) := by
  have width : (String.utf8EncodeChar c ++ rest).head?.bind charWidth = some c.utf8Size := by
    by_cases ascii : c.toNat < 128
    · have one : c.utf8Size = 1 := by
        rw [← String.length_utf8EncodeChar, Utf8.encodeChar_ascii ascii]
        rfl
      rw [Utf8.encodeChar_ascii ascii, one]
      apply charWidth_ascii
      rw [UInt8.toNat_ofNat', Nat.mod_eq_of_lt (by omega)]
      exact ascii
    · obtain ⟨b, tail, same, leads, -⟩ := Utf8.encodeChar_high (Nat.le_of_not_lt ascii)
      rw [same]
      exact charWidth_lead leads
  have length := String.length_utf8EncodeChar c
  unfold charAt
  simp only [width]
  rw [if_neg (by simp [length]), ← length, List.take_left']
  · have one : String.utf8EncodeChar c = Utf8.encode [c] := by simp
    rw [one, utf8_encode]
    simp
  · rfl

/-! ## IRIs -/

theorem isForbiddenIriByte_iff (b : UInt8) :
    isForbiddenIriByte b = true ↔
      b.toNat ≤ 0x20 ∨ b.toNat ∈ [0x3C, 0x3E, 0x22, 0x7B, 0x7D, 0x7C, 0x5E, 0x60, 0x5C] := by
  simp only [isForbiddenIriByte, Bool.or_eq_true, decide_eq_true_eq, UInt8.le_iff_toNat_le,
    List.contains_eq_mem, List.mem_cons, ← UInt8.toNat_inj, List.not_mem_nil, or_false,
    UInt8.reduceToNat]

theorem byte_of_clean {s : String} (h : Clean s) {b : UInt8} (mem : b ∈ strBytes s) :
    isForbiddenIriByte b = false := by
  rw [← Bool.not_eq_true, isForbiddenIriByte_iff]
  intro bad
  rcases byte_of_mem mem with high | ⟨c, inText, same⟩
  · simp only [List.mem_cons, List.not_mem_nil, or_false] at bad
    omega
  · have clean := h c inText
    rw [← Bool.not_eq_true, isForbidden_iff, same] at clean
    simp only [List.mem_cons, List.not_mem_nil, or_false] at bad clean
    omega

theorem unescape_plain (escape : List Char → Except String (Char × Nat)) (off : Nat)
    (cs : List Char) (plain : '\\' ∉ cs) : unescape escape off cs = .done cs := by
  induction cs generalizing off with
  | nil => rw [unescape]
  | cons c cs ih =>
      rw [List.mem_cons, not_or] at plain
      rw [unescape, if_neg (Ne.symm plain.1), ih _ plain.2]
      rfl

theorem lexIriref_clean (eof trusted : Bool) {s : String} (clean : Clean s) (rest : Bytes) :
    lexIriref eof trusted (0x3C :: (strBytes s ++ 0x3E :: rest)) =
      .done ((strBytes s).length + 2, .iri s) := by
  have close : (0x3E : UInt8) ∉ strBytes s := fun mem => absurd (byte_of_clean clean mem) (by decide)
  have noEscape : '\\' ∉ s.toList := fun mem => absurd (clean _ mem) (by decide)
  have allowed : forbiddenAt trusted (strBytes s) = none := by
    unfold forbiddenAt
    split
    · rfl
    · rw [List.findIdx?_eq_none_iff]
      intro b mem
      rw [byte_of_clean clean mem, Bool.and_false]
  unfold lexIriref
  simp only [List.drop_succ_cons, List.drop_zero, idxOf?_append_of_not_mem close,
    List.take_left, allowed, utf8_strBytes, unescape_plain _ _ _ noEscape, Scan.done_bind,
    Scan.pure_eq, String.ofList_toList]

/-- An IRI between its brackets. -/
theorem lexToken_iri (eof trusted : Bool) {s : String} (clean : Clean s) (rest : Bytes) :
    lexToken eof trusted (0x3C :: (strBytes s ++ 0x3E :: rest)) =
      .done ((strBytes s).length + 2, .iri s) := by
  rw [← lexIriref_clean eof trusted clean rest]
  show lexLt eof trusted _ = _
  unfold lexLt
  cases bytes : strBytes s with
  | nil => rfl
  | cons b tail =>
      have : b ≠ 0x3C := by
        rintro rfl
        exact absurd (byte_of_clean clean (b := 0x3C) (by simp [bytes])) (by decide)
      simp only [List.cons_append, List.getElem?_cons_succ, List.getElem?_cons_zero, if_neg this]

/-! ## Strings -/

/-- The canonical escape of a character, or the character itself. -/
def escapeChar (c : Char) : List Char :=
  if c = '"' then ['\\', '"']
  else if c = '\\' then ['\\', '\\']
  else if c = '\n' then ['\\', 'n']
  else if c = '\r' then ['\\', 'r']
  else [c]

/-- Escaping the bytes of a character is escaping the character. -/
theorem flatMap_escapeByte_char (c : Char) :
    (String.utf8EncodeChar c).flatMap escapeByte = Utf8.encode (escapeChar c) := by
  by_cases quote : c = '"'
  · subst quote
    decide
  by_cases backslash : c = '\\'
  · subst backslash
    decide
  by_cases newline : c = '\n'
  · subst newline
    decide
  by_cases carriage : c = '\r'
  · subst carriage
    decide
  have plain : ∀ b ∈ String.utf8EncodeChar c, escapeByte b = [b] := by
    intro b mem
    have ne : ∀ (d : Char) (e : UInt8), e.toNat = d.toNat → e.toNat < 128 → c ≠ d → ¬ b = e := by
      rintro d e value small different rfl
      rw [show String.utf8EncodeChar c = Utf8.encode [c] by simp] at mem
      obtain ⟨f, isC, number⟩ := (Utf8.mem_encode small).mp mem
      rw [List.mem_singleton] at isC
      exact different (Char.toNat_inj.mp (by rw [← isC, number, value]))
    unfold escapeByte
    rw [if_neg (ne '"' 0x22 rfl (by decide) quote), if_neg (ne '\\' 0x5C rfl (by decide) backslash),
      if_neg (ne '\n' 0x0A rfl (by decide) newline), if_neg (ne '\r' 0x0D rfl (by decide) carriage)]
  rw [show escapeChar c = [c] by simp [escapeChar, quote, backslash, newline, carriage]]
  rw [List.flatMap_congr plain, Utf8.encode_cons, Utf8.encode_nil, List.append_nil]
  simp

theorem flatMap_escapeByte (cs : List Char) :
    (Utf8.encode cs).flatMap escapeByte = Utf8.encode (cs.flatMap escapeChar) := by
  induction cs with
  | nil => rfl
  | cons c cs ih =>
      rw [Utf8.encode_cons, List.flatMap_append, flatMap_escapeByte_char, ih, List.flatMap_cons,
        Utf8.encode_append]

/-- The canonical escapes are undone exactly. -/
theorem unescape_escape (off : Nat) (cs : List Char) :
    unescape stringEscape off (cs.flatMap escapeChar) = .done cs := by
  induction cs generalizing off with
  | nil => rw [List.flatMap_nil, unescape]
  | cons c cs ih =>
      have escaped : ∀ (off : Nat) (d : Char),
          stringEscape ('\\' :: d :: cs.flatMap escapeChar) = .ok (c, 2) →
          unescape stringEscape off ('\\' :: d :: cs.flatMap escapeChar) = .done (c :: cs) := by
        intro off d decoded
        rw [unescape, if_pos rfl, decoded]
        simp only [Nat.add_one_sub_one, List.drop_succ_cons, List.drop_zero, ih,
          Scan.done_bind, Scan.pure_eq]
      rw [List.flatMap_cons]
      by_cases quote : c = '"'
      · subst quote
        exact escaped off '"' rfl
      by_cases backslash : c = '\\'
      · subst backslash
        exact escaped off '\\' rfl
      by_cases newline : c = '\n'
      · subst newline
        exact escaped off 'n' rfl
      by_cases carriage : c = '\r'
      · subst carriage
        exact escaped off 'r' rfl
      rw [show escapeChar c = [c] by simp [escapeChar, quote, backslash, newline, carriage]]
      rw [List.singleton_append, unescape, if_neg backslash, ih]
      rfl

/-- The scan for the closing quote passes escaped text. -/
theorem scanShort_escaped (eof trusted : Bool) (k : Nat) (escaped : Bool) (bytes rest : Bytes) :
    ∃ escaped', scanShort eof trusted 0x22 k escaped (bytes.flatMap escapeByte ++ 0x22 :: rest) =
      .done (k + (bytes.flatMap escapeByte).length, escaped') := by
  induction bytes generalizing k escaped with
  | nil =>
      refine ⟨escaped, ?_⟩
      simp only [List.flatMap_nil, List.nil_append, List.length_nil, Nat.add_zero]
      unfold scanShort
      rw [if_pos rfl]
  | cons b bytes ih =>
      have pair : ∀ d : UInt8, escapeByte b = [0x5C, d] → ∃ escaped',
          scanShort eof trusted 0x22 k escaped
            ((b :: bytes).flatMap escapeByte ++ 0x22 :: rest) =
          .done (k + ((b :: bytes).flatMap escapeByte).length, escaped') := by
        intro d same
        obtain ⟨escaped', found⟩ := ih (k + 2) true
        refine ⟨escaped', ?_⟩
        rw [List.flatMap_cons, same]
        simp only [List.cons_append, List.nil_append]
        unfold scanShort
        rw [if_neg (by decide), if_pos rfl]
        simp only [found]
        simp only [List.length_cons]
        congr 2
        omega
      by_cases quote : b = 0x22
      · exact pair 0x22 (by rw [quote]; rfl)
      by_cases backslash : b = 0x5C
      · exact pair 0x5C (by rw [backslash]; rfl)
      by_cases newline : b = 0x0A
      · exact pair 0x6E (by rw [newline]; rfl)
      by_cases carriage : b = 0x0D
      · exact pair 0x72 (by rw [carriage]; rfl)
      obtain ⟨escaped', found⟩ := ih (k + 1) escaped
      refine ⟨escaped', ?_⟩
      rw [List.flatMap_cons,
        show escapeByte b = [b] by simp [escapeByte, quote, backslash, newline, carriage]]
      simp only [List.cons_append, List.nil_append]
      unfold scanShort
      rw [if_neg quote, if_neg backslash, if_neg (by simp [newline]), found]
      simp only [List.length_cons]
      congr 2
      omega

theorem carriage_not_mem_escaped (bytes : Bytes) :
    (0x0D : UInt8) ∉ bytes.flatMap escapeByte := by
  rw [List.mem_flatMap]
  rintro ⟨b, -, mem⟩
  unfold escapeByte at mem
  split at mem
  · simp at mem
  split at mem
  · simp at mem
  split at mem
  · simp at mem
  split at mem
  · simp at mem
  · rename_i carriage
    exact carriage (List.mem_singleton.mp mem).symm

theorem head_escapeByte (b : UInt8) : ∃ d tail, escapeByte b = d :: tail ∧ d ≠ 0x22 := by
  unfold escapeByte
  split
  · exact ⟨_, _, rfl, by decide⟩
  split
  · exact ⟨_, _, rfl, by decide⟩
  split
  · exact ⟨_, _, rfl, by decide⟩
  split
  · exact ⟨_, _, rfl, by decide⟩
  · rename_i quote _ _ _
    exact ⟨_, _, rfl, quote⟩

theorem length_writeString (s : String) :
    (writeString s).length = ((strBytes s).flatMap escapeByte).length + 2 := by
  simp [writeString]

/-- A written string that no quote follows. -/
theorem lexToken_string (eof trusted : Bool) (s : String) {r : UInt8} (rest : Bytes)
    (ends : r ≠ 0x22) :
    lexToken eof trusted (writeString s ++ r :: rest) =
      .done ((writeString s).length, .string s false false) := by
  have written : writeString s ++ r :: rest =
      0x22 :: ((strBytes s).flatMap escapeByte ++ 0x22 :: r :: rest) := by
    simp [writeString]
  rw [written, length_writeString]
  show lexString eof trusted 0x22 _ = _
  cases bytes : strBytes s with
  | nil =>
      have empty : s = "" := by
        have same := textOf_strBytes s
        rw [bytes] at same
        exact same.symm
      unfold lexString
      simp only [List.flatMap_nil, List.nil_append, List.getElem?_cons_succ,
        List.getElem?_cons_zero, if_true, if_neg ends, empty]
      rfl
  | cons b tail =>
      obtain ⟨d, ds, same, notQuote⟩ := head_escapeByte b
      have short : lexString eof trusted 0x22
          (0x22 :: ((strBytes s).flatMap escapeByte ++ 0x22 :: r :: rest)) =
          lexShortString eof trusted 0x22
            (0x22 :: ((strBytes s).flatMap escapeByte ++ 0x22 :: r :: rest)) := by
        unfold lexString
        rw [bytes, List.flatMap_cons, same]
        simp only [List.cons_append, List.getElem?_cons_succ, List.getElem?_cons_zero]
        cases (ds ++ tail.flatMap escapeByte ++ 0x22 :: r :: rest)[0]? <;>
          exact if_neg notQuote
      rw [← bytes, short]
      obtain ⟨escaped, closed⟩ :=
        scanShort_escaped eof trusted 1 false (strBytes s) (r :: rest)
      have noCarriage : ((strBytes s).flatMap escapeByte).idxOf? 0x0D = none :=
        List.idxOf?_eq_none_iff.mpr (carriage_not_mem_escaped _)
      have content : finishStringContent 1 ((strBytes s).flatMap escapeByte) = .done s := by
        unfold finishStringContent
        rw [strBytes_eq_encode, flatMap_escapeByte, utf8_encode]
        simp only [String.toList_ofList, unescape_escape, Scan.done_bind, Scan.pure_eq,
          String.ofList_toList]
      unfold lexShortString
      simp only [List.drop_succ_cons, List.drop_zero, closed, Scan.done_bind,
        Nat.add_sub_cancel_left, List.take_left, noCarriage, ite_self, content, Scan.pure_eq]
      congr 2
      omega

/-! ## Blank nodes -/

theorem encodeChar_eq_cons {c : Char} :
    ∃ b tail, String.utf8EncodeChar c = b :: tail ∧ (b = 0x2E → c = '.') := by
  by_cases ascii : c.toNat < 128
  · refine ⟨_, _, Utf8.encodeChar_ascii ascii, ?_⟩
    intro same
    have value := congrArg UInt8.toNat same
    rw [UInt8.toNat_ofNat', Nat.mod_eq_of_lt (by omega)] at value
    exact Char.toNat_inj.mp value
  · obtain ⟨b, tail, same, leads, -⟩ := Utf8.encodeChar_high (Nat.le_of_not_lt ascii)
    refine ⟨b, tail, same, ?_⟩
    rintro rfl
    generalize c.utf8Size = size at leads
    cases leads <;> simp at *

/-- By induction on the characters of a label that no dot ends: the scan stops behind it. -/
theorem scanLabel_encode (eof : Bool) (i stop : Nat) (cs : List Char) (rest : Bytes)
    (chars : ∀ c ∈ cs, isPnChars c || c == '.') (last : cs.getLast? ≠ some '.') :
    scanLabel eof i stop (Utf8.encode cs ++ 0x20 :: rest) =
      .done (if cs = [] then stop else i + (Utf8.encode cs).length) := by
  induction cs generalizing i stop with
  | nil =>
      have space : charAt eof i (0x20 :: rest) = .done (' ', 1) := charAt_encode eof i ' ' rest
      rw [Utf8.encode_nil, List.nil_append, scanLabel, if_neg (by decide), space]
      rfl
  | cons c cs ih =>
      have more : ∀ d ∈ cs, isPnChars d || d == '.' :=
        fun d mem => chars d (List.mem_cons_of_mem c mem)
      have tailLast : cs.getLast? ≠ some '.' := by
        intro ends
        refine last ?_
        rw [List.getLast?_cons, ends]
        rfl
      obtain ⟨b, tail, same, dot⟩ := encodeChar_eq_cons (c := c)
      rw [Utf8.encode_cons, if_neg (List.cons_ne_nil c cs), List.length_append]
      by_cases isDot : c = '.'
      · have some_ : cs ≠ [] := by
          rintro rfl
          exact last (by rw [isDot]; rfl)
        subst isDot
        have one : String.utf8EncodeChar '.' = [0x2E] := rfl
        rw [one, List.append_assoc, List.singleton_append, scanLabel, if_pos rfl,
          ih (i + 1) stop more tailLast, if_neg some_]
        simp only [List.length_singleton]
        congr 1
        omega
      · have notDot : b ≠ 0x2E := fun isByte => isDot (dot isByte)
        have pn : isPnChars c = true := by
          have := chars c (List.mem_cons_self ..)
          rw [Bool.or_eq_true, beq_iff_eq] at this
          exact this.resolve_right isDot
        have width := String.length_utf8EncodeChar c
        have decoded := charAt_encode eof i c (Utf8.encode cs ++ 0x20 :: rest)
        rw [same] at decoded width ⊢
        simp only [List.cons_append, List.append_assoc] at decoded ⊢
        rw [scanLabel, if_neg notDot, decoded]
        simp only [pn, if_true]
        rw [← width, List.length_cons, Nat.add_sub_cancel, List.drop_left,
          ih _ _ more tailLast]
        split
        · rename_i none
          simp [none]
        · congr 1
          omega

/-- A label that passes validation, up to the space behind it. -/
theorem lexToken_blank (eof trusted : Bool) {s : String}
    (valid : Concise.validateBlankLabel s = .ok ()) (rest : Bytes) :
    lexToken eof trusted (0x5F :: 0x3A :: (strBytes s ++ 0x20 :: rest)) =
      .done ((strBytes s).length + 2, .blankLabel s) := by
  unfold lexToken
  simp only [show opening 0x5F = .underscore by decide]
  unfold Concise.validateBlankLabel at valid
  cases chars : s.toList with
  | nil =>
      rw [chars] at valid
      cases valid
  | cons c cs =>
      rw [chars] at valid
      simp only at valid
      split at valid
      · cases valid
      rename_i first
      split at valid
      · cases valid
      rename_i others
      split at valid
      · cases valid
      rename_i last
      have start : (isPnCharsU c || isAsciiDigit c) = true := by
        cases known : isPnCharsU c || isAsciiDigit c
        · exact absurd (by rw [known]; rfl) first
        · rfl
      have tail : ∀ d ∈ cs, isPnChars d || d == '.' := by
        intro d mem
        cases known : isPnChars d || d == '.'
        · exact absurd (List.any_eq_true.mpr ⟨d, mem, by rw [known]; rfl⟩) others
        · rfl
      have tailLast : cs.getLast? ≠ some '.' := by
        intro ends
        refine last ?_
        rw [List.getLast?_cons, ends]
        rfl
      have bytes : strBytes s = String.utf8EncodeChar c ++ Utf8.encode cs := by
        rw [strBytes_eq_encode, chars, Utf8.encode_cons]
      have whole : (0x5F :: 0x3A :: (strBytes s ++ 0x20 :: rest)).take ((strBytes s).length + 2) =
          0x5F :: 0x3A :: strBytes s := by
        simp
      have scanned := scanLabel_encode eof (2 + c.utf8Size) (2 + c.utf8Size) cs rest tail tailLast
      have stop : (if cs = [] then 2 + c.utf8Size
          else 2 + c.utf8Size + (Utf8.encode cs).length) = (strBytes s).length + 2 := by
        rw [bytes, List.length_append, String.length_utf8EncodeChar]
        split
        · rename_i none
          simp only [none, Utf8.encode_nil, List.length_nil]
          omega
        · omega
      have behind : (strBytes s ++ 0x20 :: rest).drop c.utf8Size =
          Utf8.encode cs ++ 0x20 :: rest := by
        rw [bytes, List.append_assoc, ← String.length_utf8EncodeChar, List.drop_left]
      have some_ : strBytes s ++ 0x20 :: rest ≠ [] := by simp
      unfold lexBlank
      simp only [List.getElem?_cons_succ, List.getElem?_cons_zero, List.drop_succ_cons,
        List.drop_zero, ne_eq, not_true_eq_false, if_false, if_neg some_]
      rw [show charAt eof 2 (strBytes s ++ 0x20 :: rest) = .done (c, c.utf8Size) by
        rw [bytes, List.append_assoc]
        exact charAt_encode eof 2 c _]
      simp only [Scan.done_bind, start, if_true]
      rw [show (0x5F :: 0x3A :: (strBytes s ++ 0x20 :: rest)).drop (2 + c.utf8Size) =
        (strBytes s ++ 0x20 :: rest).drop c.utf8Size by
          rw [Nat.add_comm, List.drop_succ_cons, List.drop_succ_cons]]
      rw [behind, scanned, stop]
      simp only [Scan.done_bind, Scan.pure_eq, whole, List.drop_succ_cons, List.drop_zero,
        textOf_strBytes]

/-! ## Language tags -/

theorem isAsciiAlphabeticByte_iff (b : UInt8) : isAsciiAlphabeticByte b = true ↔
    (0x41 ≤ b.toNat ∧ b.toNat ≤ 0x5A) ∨ (0x61 ≤ b.toNat ∧ b.toNat ≤ 0x7A) := by
  simp [isAsciiAlphabeticByte, UInt8.le_iff_toNat_le]

theorem isAsciiAlphanumericByte_iff (b : UInt8) : isAsciiAlphanumericByte b = true ↔
    ((0x41 ≤ b.toNat ∧ b.toNat ≤ 0x5A) ∨ (0x61 ≤ b.toNat ∧ b.toNat ≤ 0x7A)) ∨
      (0x30 ≤ b.toNat ∧ b.toNat ≤ 0x39) := by
  rw [isAsciiAlphanumericByte, Bool.or_eq_true, isAsciiAlphabeticByte_iff]
  simp [isAsciiDigitByte, UInt8.le_iff_toNat_le]

theorem alphabetic_bytes {cs : List Char} (all : cs.all isAsciiAlphabetic = true) {b : UInt8}
    (mem : b ∈ Utf8.encode cs) : isAsciiAlphabeticByte b = true := by
  obtain ⟨c, alpha, same⟩ := ascii_byte (p := isAsciiAlphabetic)
    (fun c h => by rw [isAsciiAlphabetic_iff] at h; omega) all mem
  rw [isAsciiAlphabetic_iff, same] at alpha
  exact (isAsciiAlphabeticByte_iff b).mpr alpha

theorem alphanumeric_bytes {cs : List Char} (all : cs.all isAsciiAlphanumeric = true) {b : UInt8}
    (mem : b ∈ Utf8.encode cs) : isAsciiAlphanumericByte b = true := by
  obtain ⟨c, alnum, same⟩ := ascii_byte (p := isAsciiAlphanumeric)
    (fun c h => by rw [isAsciiAlphanumeric_iff] at h; omega) all mem
  rw [isAsciiAlphanumeric_iff, same] at alnum
  exact (isAsciiAlphanumericByte_iff b).mpr alnum

/-- The direction, the space and the rest behind a tag. -/
def afterTag (dir : Option Dir) (rest : Bytes) : Bytes := writeDirection dir ++ 0x20 :: rest

theorem writeDirection_ltr : writeDirection (some .ltr) = [0x2D, 0x2D, 0x6C, 0x74, 0x72] := by
  decide +kernel

theorem writeDirection_rtl : writeDirection (some .rtl) = [0x2D, 0x2D, 0x72, 0x74, 0x6C] := by
  decide +kernel

/-- The direction ends the token. -/
theorem scanSubtags_direction (eof : Bool) (i : Nat) (dir : Option Dir) (rest : Bytes) :
    scanSubtags eof i (afterTag dir rest) = .done (i + (writeDirection dir).length, i, dir) := by
  have letters : ∀ a b c : UInt8, isAsciiAlphabeticByte a = true → isAsciiAlphabeticByte b = true →
      isAsciiAlphabeticByte c = true →
      (a :: b :: c :: 0x20 :: rest).takeWhile isAsciiAlphabeticByte = [a, b, c] := by
    intro a b c ha hb hc
    simp [ha, hb, hc, show isAsciiAlphabeticByte 0x20 = false by decide]
  unfold afterTag
  cases dir with
  | none =>
      show scanSubtags eof i (0x20 :: rest) = _
      rw [scanSubtags.eq_def]
      exact if_pos (by decide)
  | some d =>
      cases d with
      | ltr =>
          rw [writeDirection_ltr]
          simp only [List.cons_append, List.nil_append]
          rw [scanSubtags, if_neg (by decide), if_pos rfl,
            letters 0x6C 0x74 0x72 (by decide) (by decide) (by decide), if_neg (by simp),
            if_pos (by decide +kernel)]
          rfl
      | rtl =>
          rw [writeDirection_rtl]
          simp only [List.cons_append, List.nil_append]
          rw [scanSubtags, if_neg (by decide), if_pos rfl,
            letters 0x72 0x74 0x6C (by decide) (by decide) (by decide), if_neg (by simp),
            if_neg (by decide +kernel), if_pos (by decide +kernel)]
          rfl

/-- What follows a part of a tag begins with no letter and no digit. -/
theorem behind_part (subs : List (List Char)) (dir : Option Dir) (rest : Bytes) :
    ∃ r tail, Utf8.encode (subs.flatMap ('-' :: ·)) ++ afterTag dir rest = r :: tail ∧
      isAsciiAlphanumericByte r = false ∧ (r = 0x2D ∨ subs = [] ∧ dir = none) := by
  cases subs with
  | nil =>
      unfold afterTag
      cases dir with
      | none => exact ⟨0x20, rest, rfl, by decide, .inr ⟨rfl, rfl⟩⟩
      | some d =>
          cases d with
          | ltr =>
              rw [writeDirection_ltr]
              exact ⟨0x2D, _, rfl, by decide, .inl rfl⟩
          | rtl =>
              rw [writeDirection_rtl]
              exact ⟨0x2D, _, rfl, by decide, .inl rfl⟩
  | cons sub subs =>
      have dash : String.utf8EncodeChar '-' = [0x2D] := by decide
      rw [List.flatMap_cons, List.cons_append, Utf8.encode_cons, dash]
      exact ⟨0x2D, _, rfl, by decide, .inl rfl⟩

theorem takeWhile_part {p : UInt8 → Bool} {part : Bytes} {r : UInt8}
    (all : ∀ b ∈ part, p b = true) (stop : p r = false) (tail : Bytes) :
    (part ++ r :: tail).takeWhile p = part := by
  rw [List.takeWhile_append_of_pos all, List.takeWhile_cons_of_neg (by rw [stop]; decide),
    List.append_nil]

/-- By induction on the subtags: the scan takes each of them and the direction. -/
theorem scanSubtags_parts (eof : Bool) (i : Nat) (subs : List (List Char)) (dir : Option Dir)
    (rest : Bytes) (ok : ∀ sub ∈ subs, Subtag isAsciiAlphanumeric sub) :
    scanSubtags eof i (Utf8.encode (subs.flatMap ('-' :: ·)) ++ afterTag dir rest) =
      .done (i + (Utf8.encode (subs.flatMap ('-' :: ·))).length + (writeDirection dir).length,
        i + (Utf8.encode (subs.flatMap ('-' :: ·))).length, dir) := by
  induction subs generalizing i with
  | nil =>
      rw [List.flatMap_nil, Utf8.encode_nil, List.nil_append, scanSubtags_direction]
      rfl
  | cons sub subs ih =>
      have okSub := ok sub (List.mem_cons_self ..)
      have okSubs : ∀ other ∈ subs, Subtag isAsciiAlphanumeric other :=
        fun other mem => ok other (List.mem_cons_of_mem sub mem)
      have dash : String.utf8EncodeChar '-' = [0x2D] := by decide
      have alnum : ∀ b ∈ Utf8.encode sub, isAsciiAlphanumericByte b = true :=
        fun b mem => alphanumeric_bytes okSub.chars mem
      obtain ⟨r, tail, behind, stop, -⟩ := behind_part subs dir rest
      have whole : Utf8.encode ((sub :: subs).flatMap ('-' :: ·)) ++ afterTag dir rest =
          0x2D :: (Utf8.encode sub ++ r :: tail) := by
        rw [List.flatMap_cons, List.cons_append, Utf8.encode_cons, Utf8.encode_append, dash,
          ← behind]
        simp
      have size : (Utf8.encode ((sub :: subs).flatMap ('-' :: ·))).length =
          1 + (Utf8.encode sub).length + (Utf8.encode (subs.flatMap ('-' :: ·))).length := by
        rw [List.flatMap_cons, List.cons_append, Utf8.encode_cons, Utf8.encode_append, dash]
        simp only [List.length_append, List.length_singleton]
        omega
      have taken := takeWhile_part alnum stop tail
      have short : ¬ 8 < (Utf8.encode sub).length := by
        rw [Utf8.length_encode]
        exact Nat.not_lt.mpr okSub.short
      rw [whole, size]
      cases bytes : Utf8.encode sub with
      | nil =>
          refine absurd ?_ okSub.some
          exact Utf8.encode_inj (bytes.trans Utf8.encode_nil.symm)
      | cons b bs =>
          have first : isAsciiAlphanumericByte b = true := alnum b (by simp [bytes])
          have notDash : b ≠ 0x2D := by
            rintro rfl
            exact absurd first (by decide)
          rw [bytes] at taken short
          simp only [List.cons_append] at taken ⊢
          rw [scanSubtags, if_neg (by decide), if_neg notDash, if_pos first, taken,
            if_neg (by simp), if_neg short]
          have drop : (b :: (bs ++ r :: tail)).drop (b :: bs).length = r :: tail := by
            rw [← List.cons_append, List.drop_left]
          rw [drop, ← behind, ih _ okSubs]
          congr 1
          simp only [Prod.mk.injEq, and_true]
          omega

/-- How a tag is read: three words alone are directives. -/
def tagToken (tag : String) (dir : Option Dir) : Token :=
  if dir = none then (directiveAt (strBytes tag)).getD (.langTag tag none) else .langTag tag dir

theorem directiveAt_of_dash {word : Bytes} (dash : 0x2D ∈ word) : directiveAt word = none := by
  have bare : ∀ name : String, (0x2D : UInt8) ∉ strBytes name → word ≠ strBytes name := by
    rintro name none rfl
    exact none dash
  unfold directiveAt
  rw [if_neg (bare "prefix" (by decide +kernel)), if_neg (bare "base" (by decide +kernel)),
    if_neg (bare "version" (by decide +kernel))]

/-- A tag that passes validation, with its direction, up to the space behind it. -/
theorem lexToken_tag (eof trusted : Bool) {tag : String} (dir : Option Dir)
    (valid : Concise.validateLangTagNormalized tag = .ok ()) (rest : Bytes) :
    lexToken eof trusted (0x40 :: (strBytes tag ++ (writeDirection dir ++ 0x20 :: rest))) =
      .done (1 + (strBytes tag).length + (writeDirection dir).length, tagToken tag dir) := by
  obtain ⟨primary, subs, parts, okPrimary, okSubs, -⟩ := langTag_parts valid
  have alpha : ∀ b ∈ Utf8.encode primary, isAsciiAlphabeticByte b = true :=
    fun b mem => alphabetic_bytes okPrimary.chars mem
  obtain ⟨r, tail, behind, stop, dash⟩ := behind_part subs dir rest
  have stopAlpha : isAsciiAlphabeticByte r = false := by
    rw [isAsciiAlphanumericByte, Bool.or_eq_false_iff] at stop
    exact stop.1
  have bytes : strBytes tag = Utf8.encode primary ++ Utf8.encode (subs.flatMap ('-' :: ·)) := by
    rw [strBytes_eq_encode, parts, Utf8.encode_append]
  have whole : strBytes tag ++ (writeDirection dir ++ 0x20 :: rest) =
      Utf8.encode primary ++ r :: tail := by
    rw [bytes, List.append_assoc, ← behind]
    rfl
  have size : (strBytes tag).length =
      (Utf8.encode primary).length + (Utf8.encode (subs.flatMap ('-' :: ·))).length := by
    rw [bytes, List.length_append]
  have some_ : Utf8.encode primary ≠ [] :=
    fun none => okPrimary.some (Utf8.encode_inj (none.trans Utf8.encode_nil.symm))
  have short : ¬ 8 < (Utf8.encode primary).length := by
    rw [Utf8.length_encode]
    exact Nat.not_lt.mpr okPrimary.short
  -- where the word is no directive, the scan goes on with the subtags
  have scanned : lexTag eof (0x40 :: (Utf8.encode primary ++ r :: tail)) (Utf8.encode primary) =
      .done (1 + (strBytes tag).length + (writeDirection dir).length, Token.langTag tag dir) := by
    have drop : (0x40 :: (Utf8.encode primary ++ r :: tail)).drop
        (1 + (Utf8.encode primary).length) = r :: tail := by
      rw [Nat.add_comm, List.drop_succ_cons, List.drop_left]
    have text : ((0x40 :: (Utf8.encode primary ++ r :: tail)).take (1 +
        (Utf8.encode primary).length + (Utf8.encode (subs.flatMap ('-' :: ·))).length)).drop 1 =
        strBytes tag := by
      rw [← whole, Nat.add_assoc, ← size, Nat.add_comm, List.take_succ_cons, List.take_left]
      rfl
    rw [lexTag, if_neg short, drop, ← behind, scanSubtags_parts eof _ subs dir rest okSubs]
    simp only [Scan.done_bind, Scan.pure_eq, behind, text, textOf_strBytes, size]
    congr 2
    omega
  have at_ : (0x40 :: (Utf8.encode primary ++ r :: tail))[1 + (Utf8.encode primary).length]? =
      some r := by
    rw [Nat.add_comm, List.getElem?_cons_succ, List.getElem?_append_right (Nat.le_refl _),
      Nat.sub_self]
    rfl
  have notEnd : ¬ (1 + (Utf8.encode primary).length =
      (0x40 :: (Utf8.encode primary ++ r :: tail)).length ∧ eof = false) := by
    simp only [List.length_cons, List.length_append]
    omega
  unfold lexToken
  simp only [show opening 0x40 = .atSign by decide]
  unfold lexAt
  rw [whole]
  simp only [List.drop_succ_cons, List.drop_zero, takeWhile_part alpha stopAlpha, at_]
  rw [if_neg notEnd, if_neg some_]
  by_cases alone : subs = [] ∧ dir = none
  · obtain ⟨rfl, rfl⟩ := alone
    cases behind
    have only : strBytes tag = Utf8.encode primary := by
      rw [bytes, List.flatMap_nil, Utf8.encode_nil, List.append_nil]
    rw [if_neg (by decide), tagToken, if_pos rfl, only]
    cases directiveAt (Utf8.encode primary) with
    | some t => rfl
    | none =>
        rw [only] at scanned
        exact scanned
  · have dashed : r = 0x2D := dash.resolve_right alone
    rw [if_pos (by rw [dashed])]
    have plain : tagToken tag dir = .langTag tag dir := by
      unfold tagToken
      split
      · rename_i none
        rw [directiveAt_of_dash, none]
        · rfl
        · rw [bytes]
          cases subs with
          | nil => exact absurd ⟨rfl, none⟩ alone
          | cons sub subs =>
              have dash : String.utf8EncodeChar '-' = [0x2D] := by decide
              rw [List.flatMap_cons, List.cons_append, Utf8.encode_cons, dash]
              simp
      · rfl
    rw [plain]
    exact scanned

end Graphy.Turtle
