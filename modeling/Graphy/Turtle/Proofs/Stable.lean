import Graphy.Turtle.Proofs.Spans

/-!
# Tokens of a longer text

What the tokenizer reads without asking for more it also reads where more bytes follow,
whether or not the input ends behind them.
-/

namespace Graphy.Turtle

namespace Scan

variable {α β : Type}

/-- Unless it asks for more, the first scan goes as the second. -/
def Extends (m m' : Scan α) : Prop := m ≠ .needMore → m' = m

theorem Extends.refl (m : Scan α) : m.Extends m := fun _ => rfl

theorem extends_needMore (m : Scan α) : (Scan.needMore : Scan α).Extends m :=
  fun settled => absurd rfl settled

theorem extends_ended (off : Nat) (message : String) (m : Scan α) :
    (ended false off message : Scan α).Extends m := extends_needMore m

theorem extends_of_eq {m m' : Scan α} (h : m' = m) : m.Extends m' := fun _ => h

theorem extends_bind {m m' : Scan α} {f f' : α → Scan β} (first : m.Extends m')
    (next : ∀ a, m = .done a → (f a).Extends (f' a)) : (m >>= f).Extends (m' >>= f') := by
  cases m with
  | needMore => exact extends_needMore _
  | error off message =>
      rw [first (by simp)]
      exact .refl _
  | done a =>
      rw [first (by simp)]
      exact next a rfl

end Scan

open Scan

/-! ## Bytes of a longer text -/

section Longer

variable {bytes : Bytes} (more : Bytes)
include more

theorem getElem?_longer {i : Nat} {b : UInt8} (h : bytes[i]? = some b) :
    (bytes ++ more)[i]? = some b := by
  rw [List.getElem?_append_left (List.getElem?_eq_some_iff.mp h).1, h]

theorem takeWhile_longer {p : UInt8 → Bool} (h : (bytes.takeWhile p).length ≠ bytes.length) :
    (bytes ++ more).takeWhile p = bytes.takeWhile p := by
  rw [List.takeWhile_append, if_neg h]

theorem drop_longer {n : Nat} (h : n ≤ bytes.length) :
    (bytes ++ more).drop n = bytes.drop n ++ more := List.drop_append_of_le_length h

theorem take_longer {n : Nat} (h : n ≤ bytes.length) :
    (bytes ++ more).take n = bytes.take n := List.take_append_of_le_length h

theorem idxOf?_longer {b : UInt8} {i : Nat} (h : bytes.idxOf? b = some i) :
    (bytes ++ more).idxOf? b = some i := by
  rw [List.idxOf?, List.findIdx?_append, ← List.idxOf?, h, Option.some_or]

end Longer

/-! ## Characters -/

theorem charAt_extends (eof : Bool) (off : Nat) {bytes : Bytes} (some_ : bytes ≠ [])
    (more : Bytes) : (charAt false off bytes).Extends (charAt eof off (bytes ++ more)) := by
  obtain ⟨b, rest, rfl⟩ := List.exists_cons_of_ne_nil some_
  unfold charAt
  simp only [List.cons_append, List.head?_cons, Option.bind_some]
  cases width : charWidth b with
  | none => exact .refl _
  | some w =>
      simp only
      by_cases short : (b :: rest).length < w
      · rw [if_pos short]
        exact extends_ended _ _ _
      · have long : ¬ (b :: (rest ++ more)).length < w := by
          simp only [List.length_cons, List.length_append] at short ⊢
          omega
        rw [if_neg short, if_neg long, ← List.cons_append,
          take_longer more (Nat.le_of_not_lt short)]
        exact .refl _

theorem charAt_longer (eof : Bool) {off : Nat} {b : UInt8} {rest : Bytes} (more : Bytes)
    {m : Scan (Char × Nat)} (read : charAt false off (b :: rest) = m) (settled : m ≠ .needMore) :
    charAt eof off (b :: (rest ++ more)) = m := by
  have same := charAt_extends eof off (List.cons_ne_nil b rest) more
  rw [read] at same
  exact same settled

theorem charAt_fits {eof : Bool} {off : Nat} {b : UInt8} {rest : Bytes} {c : Char} {w : Nat}
    (read : charAt eof off (b :: rest) = .done (c, w)) : w - 1 ≤ rest.length := by
  have settled := charAt_cons_settled eof off b rest
  rw [read] at settled
  have fits := settled.2
  rw [List.length_cons] at fits
  exact Nat.sub_le_iff_le_add.mpr fits

/-! ## IRIs and strings -/

theorem lexIriref_extends (eof trusted : Bool) {bytes : Bytes} (some_ : bytes ≠ [])
    (more : Bytes) :
    (lexIriref false trusted bytes).Extends (lexIriref eof trusted (bytes ++ more)) := by
  have one : 1 ≤ bytes.length := List.length_pos_iff.mpr some_
  unfold lexIriref
  rw [drop_longer more one]
  cases found : (bytes.drop 1).idxOf? 0x3E with
  | none => exact extends_ended _ _ _
  | some gt =>
      rw [idxOf?_longer more found]
      dsimp only
      rw [take_longer more (Nat.le_of_lt (idxOf?_lt found))]
      exact .refl _

theorem lexLt_extends (eof trusted : Bool) {bytes : Bytes} (some_ : bytes ≠ []) (more : Bytes) :
    (lexLt false trusted bytes).Extends (lexLt eof trusted (bytes ++ more)) := by
  unfold lexLt
  cases second : bytes[1]? with
  | none => exact extends_needMore _
  | some b =>
      rw [getElem?_longer more second]
      simp only
      by_cases lt : b = 0x3C
      · rw [if_pos lt, if_pos lt]
        cases third : bytes[2]? with
        | none => exact extends_needMore _
        | some c =>
            rw [getElem?_longer more third]
            exact .refl _
      · rw [if_neg lt, if_neg lt]
        exact lexIriref_extends eof trusted some_ more

theorem scanShort_extends (eof trusted : Bool) (q : UInt8) (k : Nat) (escaped : Bool)
    (bytes more : Bytes) : (scanShort false trusted q k escaped bytes).Extends
      (scanShort eof trusted q k escaped (bytes ++ more)) := by
  fun_induction scanShort false trusted q k escaped bytes with
  | case1 => exact extends_ended _ _ _
  | case2 k escaped rest =>
      rw [List.cons_append, scanShort.eq_def eof]
      dsimp only
      rw [if_pos rfl]
      exact .refl _
  | case3 => exact extends_ended _ _ _
  | case4 k escaped b rest notQuote ih =>
      rw [List.cons_append, List.cons_append, scanShort.eq_def eof]
      dsimp only
      rw [if_neg notQuote, if_pos rfl]
      exact ih
  | case5 k escaped b rest notQuote notEscape newline =>
      rw [List.cons_append, scanShort.eq_def eof]
      dsimp only
      rw [if_neg notQuote, if_neg notEscape, if_pos newline]
      exact .refl _
  | case6 k escaped b rest notQuote notEscape other ih =>
      rw [List.cons_append, scanShort.eq_def eof]
      dsimp only
      rw [if_neg notQuote, if_neg notEscape, if_neg other]
      exact ih

theorem lexShortString_extends (eof trusted : Bool) (q : UInt8) {bytes : Bytes}
    (some_ : 1 ≤ bytes.length) (more : Bytes) : (lexShortString false trusted q bytes).Extends
      (lexShortString eof trusted q (bytes ++ more)) := by
  unfold lexShortString
  rw [drop_longer more some_]
  refine extends_bind (scanShort_extends eof trusted q 1 false (bytes.drop 1) more) ?_
  rintro ⟨ce, escaped⟩ scanned
  have settled := scanShort_settled false trusted q 1 false (bytes.drop 1)
  rw [scanned] at settled
  have high := settled.2
  simp only at high ⊢
  rw [take_longer more (by omega)]
  exact .refl _

/-- A run of quotes that another byte follows. -/
theorem scanLong_run (eof : Bool) {q : UInt8} (notEscape : q ≠ 0x5C) (k : Nat) {rest : Bytes}
    (closed : (rest.takeWhile (· == q)).length ≠ rest.length) (more : Bytes) :
    scanLong eof q k (q :: (rest ++ more)) =
      if 3 < 1 + (rest.takeWhile (· == q)).length then
        .error k "long string content may not end with unescaped quotes"
      else if 1 + (rest.takeWhile (· == q)).length = 3 then .done k
      else scanLong eof q (k + (1 + (rest.takeWhile (· == q)).length))
        (rest.drop (rest.takeWhile (· == q)).length ++ more) := by
  have le := length_takeWhile_le (· == q) rest
  have within : ¬ (1 + (rest.takeWhile (· == q)).length = (q :: (rest ++ more)).length ∧
      eof = false) := by
    rw [List.length_cons, List.length_append]
    omega
  rw [scanLong.eq_def eof]
  dsimp only
  rw [if_neg notEscape, if_pos rfl, takeWhile_longer more closed, if_neg within,
    Nat.add_sub_cancel_left, drop_longer more le]

theorem scanLong_extends (eof : Bool) (q : UInt8) (k : Nat) (bytes more : Bytes) :
    (scanLong false q k bytes).Extends (scanLong eof q k (bytes ++ more)) := by
  fun_induction scanLong false q k bytes with
  | case1 => exact extends_ended _ _ _
  | case2 k => exact extends_ended _ _ _
  | case3 k b rest ih =>
      rw [List.cons_append, List.cons_append, scanLong]
      dsimp only
      rw [if_pos rfl]
      exact ih
  | case4 k rest run notEscape open_ =>
      rw [if_pos open_]
      exact extends_needMore _
  | case5 k rest run long notEscape closed =>
      have apart : (rest.takeWhile (· == q)).length ≠ rest.length := fun same =>
        closed ⟨by rw [List.length_cons, ← same]; exact Nat.add_comm _ _, rfl⟩
      rw [if_neg closed, if_pos long, List.cons_append, scanLong_run eof notEscape k apart more,
        if_pos long]
      exact .refl _
  | case6 k rest run notLong three notEscape closed =>
      have apart : (rest.takeWhile (· == q)).length ≠ rest.length := fun same =>
        closed ⟨by rw [List.length_cons, ← same]; exact Nat.add_comm _ _, rfl⟩
      rw [if_neg closed, if_neg notLong, if_pos three, List.cons_append,
        scanLong_run eof notEscape k apart more, if_neg notLong, if_pos three]
      exact .refl _
  | case7 k rest run notLong notThree notEscape closed ih =>
      have apart : (rest.takeWhile (· == q)).length ≠ rest.length := fun same =>
        closed ⟨by rw [List.length_cons, ← same]; exact Nat.add_comm _ _, rfl⟩
      have behind : run - 1 = (rest.takeWhile (· == q)).length := Nat.add_sub_cancel_left ..
      rw [if_neg closed, if_neg notLong, if_neg notThree, List.cons_append,
        scanLong_run eof notEscape k apart more, if_neg notLong, if_neg notThree]
      rw [behind] at ih ⊢
      exact ih
  | case8 k b rest h1 h2 ih =>
      rw [List.cons_append, scanLong.eq_def eof]
      dsimp only
      rw [if_neg h1, if_neg h2]
      exact ih

theorem lexLongString_extends (eof : Bool) (q : UInt8) {bytes : Bytes}
    (some_ : 3 ≤ bytes.length) (more : Bytes) :
    (lexLongString false q bytes).Extends (lexLongString eof q (bytes ++ more)) := by
  unfold lexLongString
  rw [drop_longer more some_]
  refine extends_bind (scanLong_extends eof q 3 (bytes.drop 3) more) ?_
  intro ce scanned
  have settled := scanLong_settled false q 3 (bytes.drop 3)
  rw [scanned] at settled
  have high := settled.2
  rw [take_longer more (by omega)]
  exact .refl _

theorem lexString_extends (eof trusted : Bool) (q : UInt8) {bytes : Bytes} (some_ : bytes ≠ [])
    (more : Bytes) :
    (lexString false trusted q bytes).Extends (lexString eof trusted q (bytes ++ more)) := by
  have one : 1 ≤ bytes.length := List.length_pos_iff.mpr some_
  unfold lexString
  cases second : bytes[1]? with
  | none => exact extends_ended _ _ _
  | some b =>
      rw [getElem?_longer more second]
      cases third : bytes[2]? with
      | none =>
          by_cases quote : b = q
          · simp only [if_pos quote]
            exact extends_needMore _
          · cases (bytes ++ more)[2]? with
            | none =>
                simp only [if_neg quote]
                exact lexShortString_extends eof trusted q one more
            | some c =>
                simp only [if_neg quote]
                exact lexShortString_extends eof trusted q one more
      | some c =>
          rw [getElem?_longer more third]
          simp only
          split
          · split
            · exact lexLongString_extends eof q (getElem?_le third) more
            · exact .refl _
          · exact lexShortString_extends eof trusted q one more

/-! ## Labels and tags -/

theorem scanLabel_extends (eof : Bool) (i stop : Nat) (bytes more : Bytes) :
    (scanLabel false i stop bytes).Extends (scanLabel eof i stop (bytes ++ more)) := by
  fun_induction scanLabel false i stop bytes with
  | case1 i stop ended => cases ended
  | case2 => exact extends_needMore _
  | case3 i stop rest ih =>
      rw [List.cons_append, scanLabel.eq_def eof]
      dsimp only
      rw [if_pos rfl]
      exact ih
  | case4 => exact extends_needMore _
  | case5 i stop b rest notDot off message read =>
      rw [List.cons_append, scanLabel.eq_def eof]
      dsimp only
      rw [if_neg notDot, charAt_longer eof more read (by simp)]
      exact .refl _
  | case6 i stop b rest notDot c w read pn ih =>
      rw [List.cons_append, scanLabel.eq_def eof]
      dsimp only
      rw [if_neg notDot, charAt_longer eof more read (by simp)]
      dsimp only
      rw [if_pos pn, drop_longer more (charAt_fits read)]
      exact ih
  | case7 i stop b rest notDot c w read pn =>
      rw [List.cons_append, scanLabel.eq_def eof]
      dsimp only
      rw [if_neg notDot, charAt_longer eof more read (by simp)]
      dsimp only
      rw [if_neg pn]
      exact .refl _

theorem lexBlank_extends (eof : Bool) (bytes more : Bytes) :
    (lexBlank false bytes).Extends (lexBlank eof (bytes ++ more)) := by
  unfold lexBlank
  cases second : bytes[1]? with
  | none => exact extends_ended _ _ _
  | some b =>
      have two := getElem?_le second
      rw [getElem?_longer more second, drop_longer more two]
      dsimp only
      split
      · exact .refl _
      · split
        · exact extends_ended _ _ _
        · rename_i some_
          rw [if_neg (by simp [some_])]
          refine extends_bind (charAt_extends eof 2 some_ more) ?_
          rintro ⟨c, w⟩ read
          have fits := charAt_settled false 2 (List.length_pos_iff.mpr some_)
          rw [read] at fits
          have within := fits.2
          rw [List.length_drop] at within
          dsimp only at within ⊢
          split
          · rw [drop_longer more (by omega)]
            refine extends_bind (scanLabel_extends eof _ _ _ more) ?_
            intro stop scanned
            have settled := scanLabel_settled false (bytes.drop (2 + w)) (Nat.le_refl (2 + w))
            rw [scanned] at settled
            have high : stop ≤ _ := settled
            rw [List.length_drop] at high
            rw [take_longer more (by omega)]
            exact .refl _
          · exact .refl _

/-- Two dashes and some letters that another byte follows. -/
theorem scanSubtags_dashes (eof : Bool) (i : Nat) {b : UInt8} (dash : ¬ b ≠ 0x2D)
    {rest : Bytes} (closed : (rest.takeWhile isAsciiAlphabeticByte).length ≠ rest.length)
    (more : Bytes) : scanSubtags eof i (b :: 0x2D :: (rest ++ more)) =
      let letters := rest.takeWhile isAsciiAlphabeticByte
      if letters = strBytes "ltr" then .done (i + 2 + letters.length, i, some .ltr)
      else if letters = strBytes "rtl" then .done (i + 2 + letters.length, i, some .rtl)
      else .error i "base direction must be --ltr or --rtl" := by
  have le := length_takeWhile_le isAsciiAlphabeticByte rest
  have within : ¬ ((rest.takeWhile isAsciiAlphabeticByte).length = (rest ++ more).length ∧
      eof = false) := by
    rw [List.length_append]
    omega
  rw [scanSubtags.eq_def eof]
  dsimp only
  rw [if_neg dash, if_pos rfl, takeWhile_longer more closed, if_neg within]

/-- A dash and a subtag that another byte follows. -/
theorem scanSubtags_subtag (eof : Bool) (i : Nat) {b c : UInt8} (dash : ¬ b ≠ 0x2D)
    (notDash : c ≠ 0x2D) (letter : isAsciiAlphanumericByte c = true) {rest : Bytes}
    (closed : ((c :: rest).takeWhile isAsciiAlphanumericByte).length ≠ (c :: rest).length)
    (more : Bytes) : scanSubtags eof i (b :: c :: (rest ++ more)) =
      let sub := (c :: rest).takeWhile isAsciiAlphanumericByte
      if 8 < sub.length then .error (i + 1) tooLong
      else scanSubtags eof (i + 1 + sub.length) ((c :: rest).drop sub.length ++ more) := by
  have le := length_takeWhile_le isAsciiAlphanumericByte (c :: rest)
  have same := takeWhile_longer more closed
  rw [List.cons_append] at same
  have within : ¬ (((c :: rest).takeWhile isAsciiAlphanumericByte).length =
      (c :: (rest ++ more)).length ∧ eof = false) := by
    simp only [List.length_cons, List.length_append] at le closed ⊢
    omega
  rw [scanSubtags.eq_def eof]
  dsimp only
  rw [if_neg dash, if_neg notDash, if_pos letter, same, if_neg within, ← List.cons_append,
    drop_longer more le]

theorem scanSubtags_extends (eof : Bool) (i : Nat) {bytes : Bytes} (some_ : bytes ≠ [])
    (more : Bytes) : (scanSubtags false i bytes).Extends (scanSubtags eof i (bytes ++ more)) := by
  fun_induction scanSubtags false i bytes with
  | case1 i => exact absurd rfl some_
  | case2 i b rest other =>
      rw [List.cons_append, scanSubtags.eq_def eof]
      dsimp only
      rw [if_pos other]
      exact .refl _
  | case3 i b dash ended => cases ended
  | case4 => exact extends_needMore _
  | case5 => exact extends_needMore _
  | case6 i b dash rest letters closed ltr =>
      rw [List.cons_append, List.cons_append,
        scanSubtags_dashes eof i dash (fun same => closed ⟨same, rfl⟩) more]
      exact extends_of_eq (if_pos ltr)
  | case7 i b dash rest letters closed notLtr rtl =>
      rw [List.cons_append, List.cons_append,
        scanSubtags_dashes eof i dash (fun same => closed ⟨same, rfl⟩) more]
      exact extends_of_eq ((if_neg notLtr).trans (if_pos rtl))
  | case8 i b dash rest letters closed notLtr notRtl =>
      rw [List.cons_append, List.cons_append,
        scanSubtags_dashes eof i dash (fun same => closed ⟨same, rfl⟩) more]
      exact extends_of_eq ((if_neg notLtr).trans (if_neg notRtl))
  | case9 => exact extends_needMore _
  | case10 i b dash c rest notDash letter sub closed long =>
      rw [List.cons_append, List.cons_append,
        scanSubtags_subtag eof i dash notDash letter (fun same => closed ⟨same, rfl⟩) more]
      exact extends_of_eq (if_pos long)
  | case11 i b dash c rest notDash letter sub closed short ih =>
      have apart : sub.length ≠ (c :: rest).length := fun same => closed ⟨same, rfl⟩
      have le : sub.length ≤ (c :: rest).length := length_takeWhile_le isAsciiAlphanumericByte _
      have left : (c :: rest).drop sub.length ≠ [] := by
        rw [← List.length_pos_iff, List.length_drop]
        omega
      rw [List.cons_append, List.cons_append,
        scanSubtags_subtag eof i dash notDash letter apart more]
      dsimp only
      rw [if_neg short]
      exact ih left
  | case12 i b dash c rest notDash other =>
      rw [List.cons_append, List.cons_append, scanSubtags.eq_def eof]
      dsimp only
      rw [if_neg dash, if_neg notDash, if_neg other]
      exact .refl _

theorem lexTag_extends (eof : Bool) {bytes primary : Bytes}
    (lt : 1 + primary.length < bytes.length) (more : Bytes) :
    (lexTag false bytes primary).Extends (lexTag eof (bytes ++ more) primary) := by
  have some_ : bytes.drop (1 + primary.length) ≠ [] := by
    rw [← List.length_pos_iff, List.length_drop]
    omega
  unfold lexTag
  split
  · exact .refl _
  · rw [drop_longer more (Nat.le_of_lt lt)]
    refine extends_bind (scanSubtags_extends eof _ some_ more) ?_
    rintro ⟨stop, tagEnd, dir⟩ scanned
    have settled := scanSubtags_settled false (1 + primary.length) (bytes.drop (1 + primary.length))
    rw [scanned, List.length_drop] at settled
    obtain ⟨low, high⟩ := settled
    dsimp only at low high ⊢
    rw [take_longer more (by omega)]
    exact .refl _

theorem lexAt_extends (eof : Bool) {bytes : Bytes} (some_ : bytes ≠ []) (more : Bytes) :
    (lexAt false bytes).Extends (lexAt eof (bytes ++ more)) := by
  have one : 1 ≤ bytes.length := List.length_pos_iff.mpr some_
  have letters := length_takeWhile_le isAsciiAlphabeticByte (bytes.drop 1)
  rw [List.length_drop] at letters
  unfold lexAt
  rw [drop_longer more one]
  dsimp only
  split
  · exact extends_needMore _
  · rename_i closed
    have lt : 1 + ((bytes.drop 1).takeWhile isAsciiAlphabeticByte).length < bytes.length := by
      refine Nat.lt_of_le_of_ne (by omega) fun same => closed ⟨same, rfl⟩
    have apart : ((bytes.drop 1).takeWhile isAsciiAlphabeticByte).length ≠
        (bytes.drop 1).length := by
      rw [List.length_drop]
      omega
    have within : ¬ (1 + ((bytes.drop 1).takeWhile isAsciiAlphabeticByte).length =
        (bytes ++ more).length ∧ eof = false) := by
      rw [List.length_append]
      omega
    rw [takeWhile_longer more apart, List.getElem?_append_left lt, if_neg within]
    split
    · exact .refl _
    · split
      · rename_i t found
        rw [found]
        exact .refl _
      · rename_i found
        rw [found]
        exact lexTag_extends eof lt more

/-! ## Numbers -/

section Digits

variable {bytes : Bytes} (more : Bytes)
include more

theorem signAt_longer {i : Nat} (lt : i < bytes.length) :
    signAt (bytes ++ more) i = signAt bytes i := by
  unfold signAt
  rw [List.getElem?_append_left lt]

/-- Digits that another byte follows. -/
theorem digitsAt_longer {i : Nat} (le : i ≤ bytes.length)
    (closed : i + digitsAt bytes i ≠ bytes.length) :
    digitsAt (bytes ++ more) i = digitsAt bytes i := by
  unfold digitsAt at closed ⊢
  rw [drop_longer more le, takeWhile_longer more]
  rw [List.length_drop]
  omega

theorem inside_longer {n : Nat} (le : n ≤ bytes.length) (closed : n ≠ bytes.length)
    (eof : Bool) : ¬ (n = (bytes ++ more).length ∧ eof = false) := by
  rw [List.length_append]
  omega

end Digits

theorem scanExponent_extends (eof : Bool) {bytes : Bytes} {e : Nat} (lt : e < bytes.length)
    (more : Bytes) :
    (scanExponent false bytes e).Extends (scanExponent eof (bytes ++ more) e) := by
  have le : e + 1 ≤ bytes.length := lt
  have signed := signAt_le le
  have digits := digitsAt_le signed
  unfold scanExponent
  dsimp only
  by_cases ended : e + 1 + signAt bytes (e + 1) +
      digitsAt bytes (e + 1 + signAt bytes (e + 1)) = bytes.length
  · rw [if_pos ⟨ended, rfl⟩]
    exact extends_needMore _
  · have sign : signAt (bytes ++ more) (e + 1) = signAt bytes (e + 1) := by
      rcases Nat.lt_or_ge (e + 1) bytes.length with inside | last
      · exact signAt_longer more inside
      · exact absurd (by omega) ended
    rw [sign, digitsAt_longer more signed ended, if_neg (inside_longer more digits ended eof),
      if_neg fun h => ended h.1]
    exact .refl _

theorem lexNumber_extends (eof : Bool) {bytes : Bytes} (some_ : bytes ≠ []) (more : Bytes) :
    (lexNumber false bytes).Extends (lexNumber eof (bytes ++ more)) := by
  have one : 0 < bytes.length := List.length_pos_iff.mpr some_
  have signed := signAt_le (Nat.zero_le bytes.length)
  rw [Nat.zero_add] at signed
  have whole := digitsAt_le signed
  have double : ∀ e, e < bytes.length → (do
      let stop ← scanExponent false bytes e
      return (stop, Token.double (textOf (bytes.take stop))) : Scan (Nat × Token)).Extends (do
      let stop ← scanExponent eof (bytes ++ more) e
      return (stop, Token.double (textOf ((bytes ++ more).take stop)))) := by
    intro e lt
    refine extends_bind (scanExponent_extends eof lt more) ?_
    intro stop scanned
    have settled := scanExponent_settled false (Nat.succ_le_of_lt lt)
    rw [scanned] at settled
    rw [take_longer more settled]
    exact .refl _
  unfold lexNumber
  rw [signAt_longer more one]
  generalize signAt bytes 0 = ds at signed whole ⊢
  dsimp only
  by_cases ended : ds + digitsAt bytes ds = bytes.length
  · rw [if_pos ⟨ended, rfl⟩]
    exact extends_needMore _
  · rw [digitsAt_longer more signed ended, if_neg (inside_longer more whole ended eof),
      if_neg fun h => ended h.1,
      List.getElem?_append_left (Nat.lt_of_le_of_ne whole ended)]
    generalize behind : ds + digitsAt bytes ds = i at whole ended ⊢
    split
    · rename_i dot
      have fraction := digitsAt_le (getElem?_le dot)
      by_cases ended' : i + 1 + digitsAt bytes (i + 1) = bytes.length
      · rw [if_pos ⟨ended', rfl⟩]
        exact extends_needMore _
      · rw [digitsAt_longer more (getElem?_le dot) ended',
          if_neg (inside_longer more fraction ended' eof), if_neg fun h => ended' h.1,
          List.getElem?_append_left (Nat.lt_of_le_of_ne fraction ended')]
        split
        · rename_i exponent
          exact double _ (isExponentMark_le exponent.1)
        · rw [take_longer more fraction, take_longer more whole]
          exact .refl _
    · split
      · rename_i exponent
        exact double _ (isExponentMark_le exponent.1)
      · rw [take_longer more whole]
        exact .refl _

/-! ## Words -/

theorem scanLocal_extends (eof : Bool) (i stop : Nat) (first : Bool)
    (dots text bytes more : Bytes) : (scanLocal false i stop first dots text bytes).Extends
      (scanLocal eof i stop first dots text (bytes ++ more)) := by
  fun_induction scanLocal false i stop first dots text bytes with
  | case1 i stop first dots text ended => cases ended
  | case2 => exact extends_needMore _
  | case3 i stop first dots text x y rest hex ih =>
      rw [List.cons_append, List.cons_append, List.cons_append, scanLocal.eq_def eof]
      dsimp only
      rw [if_pos rfl, if_pos hex]
      exact ih
  | case4 i stop first dots text x y rest notHex =>
      rw [List.cons_append, List.cons_append, List.cons_append, scanLocal.eq_def eof]
      dsimp only
      rw [if_pos rfl, if_neg notHex]
      exact .refl _
  | case5 => exact extends_ended _ _ _
  | case6 => exact extends_ended _ _ _
  | case7 i stop first dots text x rest allowed notPercent ih =>
      rw [List.cons_append, List.cons_append, scanLocal.eq_def eof]
      dsimp only
      rw [if_neg notPercent, if_pos rfl, if_pos allowed]
      exact ih
  | case8 i stop first dots text x rest refused notPercent =>
      rw [List.cons_append, List.cons_append, scanLocal.eq_def eof]
      dsimp only
      rw [if_neg notPercent, if_pos rfl, if_neg refused]
      exact .refl _
  | case9 i stop first dots text rest notPercent notEscape ih =>
      rw [List.cons_append, scanLocal.eq_def eof]
      dsimp only
      rw [if_neg notPercent, if_neg notEscape, if_pos rfl]
      exact ih
  | case10 i stop first dots text b rest notPercent notEscape notColon dot ih =>
      rw [List.cons_append, scanLocal.eq_def eof]
      dsimp only
      rw [if_neg notPercent, if_neg notEscape, if_neg notColon, if_pos dot]
      exact ih
  | case11 => exact extends_needMore _
  | case12 i stop first dots text b rest notPercent notEscape notColon notDot off message read =>
      rw [List.cons_append, scanLocal.eq_def eof]
      dsimp only
      rw [if_neg notPercent, if_neg notEscape, if_neg notColon, if_neg notDot,
        charAt_longer eof more read (by simp)]
      exact .refl _
  | case13 i stop first dots text b rest notPercent notEscape notColon notDot c w read pn ih =>
      have fits := charAt_fits read
      rw [List.cons_append, scanLocal.eq_def eof]
      dsimp only
      rw [if_neg notPercent, if_neg notEscape, if_neg notColon, if_neg notDot,
        charAt_longer eof more read (by simp)]
      dsimp only
      have taken : (b :: (rest ++ more)).take w = (b :: rest).take w := by
        rw [← List.cons_append, take_longer more]
        rw [List.length_cons]
        omega
      rw [if_pos pn, taken, drop_longer more fits]
      exact ih
  | case14 i stop first dots text b rest notPercent notEscape notColon notDot c w read notPn =>
      rw [List.cons_append, scanLocal.eq_def eof]
      dsimp only
      rw [if_neg notPercent, if_neg notEscape, if_neg notColon, if_neg notDot,
        charAt_longer eof more read (by simp)]
      dsimp only
      rw [if_neg notPn]
      exact .refl _

theorem scanPrefix_extends (eof : Bool) (i stop : Nat) (bytes more : Bytes) :
    (scanPrefix false i stop bytes).Extends (scanPrefix eof i stop (bytes ++ more)) := by
  fun_induction scanPrefix false i stop bytes with
  | case1 i stop ended => cases ended
  | case2 => exact extends_needMore _
  | case3 i stop rest ih =>
      rw [List.cons_append, scanPrefix.eq_def eof]
      dsimp only
      rw [if_pos rfl]
      exact ih
  | case4 i stop rest notDot =>
      rw [List.cons_append, scanPrefix.eq_def eof]
      dsimp only
      rw [if_neg notDot, if_pos rfl]
      exact .refl _
  | case5 => exact extends_needMore _
  | case6 i stop b rest notDot notColon off message read =>
      rw [List.cons_append, scanPrefix.eq_def eof]
      dsimp only
      rw [if_neg notDot, if_neg notColon, charAt_longer eof more read (by simp)]
      exact .refl _
  | case7 i stop b rest notDot notColon c w read pn ih =>
      rw [List.cons_append, scanPrefix.eq_def eof]
      dsimp only
      rw [if_neg notDot, if_neg notColon, charAt_longer eof more read (by simp)]
      dsimp only
      rw [if_pos pn, drop_longer more (charAt_fits read)]
      exact ih
  | case8 i stop b rest notDot notColon c w read notPn =>
      rw [List.cons_append, scanPrefix.eq_def eof]
      dsimp only
      rw [if_neg notDot, if_neg notColon, charAt_longer eof more read (by simp)]
      dsimp only
      rw [if_neg notPn]
      exact .refl _

theorem lexPname_extends (eof : Bool) {bytes : Bytes} {colon : Nat} (lt : colon < bytes.length)
    (more : Bytes) :
    (lexPname false bytes colon).Extends (lexPname eof (bytes ++ more) colon) := by
  unfold lexPname
  rw [drop_longer more lt, take_longer more (Nat.le_of_lt lt)]
  exact extends_bind (scanLocal_extends eof _ _ _ _ _ _ more) fun _ _ => .refl _

/-- The scan of a prefix that does not ask for more stops at a byte it has. -/
theorem scanPrefix_stops {i stop : Nat} {bytes : Bytes} {r : Nat × Nat} (le : stop ≤ i)
    (h : scanPrefix false i stop bytes = .done r) :
    r.2 ≤ r.1 ∧ r.1 < i + bytes.length := by
  fun_induction scanPrefix false i stop bytes with
  | case1 i stop ended => cases ended
  | case2 => cases h
  | case3 i stop rest ih =>
      have := ih (by omega) h
      rw [List.length_cons]
      omega
  | case4 =>
      cases h
      rw [List.length_cons]
      dsimp only
      omega
  | case5 => cases h
  | case6 => cases h
  | case7 i stop b rest notDot notColon c w read pn ih =>
      have := ih (Nat.le_refl _) h
      have fits := charAt_fits read
      have wide := charAt_width read
      rw [List.length_drop] at this
      rw [List.length_cons]
      dsimp only at wide
      omega
  | case8 =>
      cases h
      rw [List.length_cons]
      dsimp only
      omega

theorem lexWord_extends (eof : Bool) {bytes : Bytes} (some_ : bytes ≠ []) (more : Bytes) :
    (lexWord false bytes).Extends (lexWord eof (bytes ++ more)) := by
  have one : 0 < bytes.length := List.length_pos_iff.mpr some_
  have head : (bytes ++ more).head? = bytes.head? := by
    rw [List.head?_append, List.head?_eq_some_head some_, Option.some_or]
  unfold lexWord
  rw [head]
  split
  · exact lexPname_extends eof one more
  · refine extends_bind (charAt_extends eof 0 some_ more) ?_
    rintro ⟨c, w⟩ read
    have settled := charAt_settled false 0 one
    rw [read] at settled
    obtain ⟨wide, fits⟩ := settled
    dsimp only at wide fits ⊢
    split
    · rw [drop_longer more fits]
      refine extends_bind (scanPrefix_extends eof w w _ more) ?_
      rintro ⟨i, stop⟩ scanned
      have stops := scanPrefix_stops (Nat.le_refl w) scanned
      rw [List.length_drop] at stops
      obtain ⟨low, high⟩ := stops
      dsimp only at low high ⊢
      have inside : i < bytes.length := by omega
      rw [List.getElem?_append_left inside]
      split
      · exact lexPname_extends eof inside more
      · rw [take_longer more (by omega)]
        exact .refl _
    · exact .refl _

/-! ## Tokens -/

theorem lexPair_extends (eof : Bool) (bytes more : Bytes) (second : UInt8) (both : Token)
    (alone : Scan (Nat × Token)) :
    (lexPair false bytes second both alone).Extends
      (lexPair eof (bytes ++ more) second both alone) := by
  unfold lexPair
  cases found : bytes[1]? with
  | none => exact extends_needMore _
  | some b =>
      rw [getElem?_longer more found]
      exact .refl _

theorem lexDot_extends (eof : Bool) {bytes : Bytes} (some_ : bytes ≠ []) (more : Bytes) :
    (lexDot false bytes).Extends (lexDot eof (bytes ++ more)) := by
  unfold lexDot
  cases found : bytes[1]? with
  | none => exact extends_needMore _
  | some b =>
      rw [getElem?_longer more found]
      dsimp only
      split
      · exact lexNumber_extends eof some_ more
      · exact .refl _

theorem lexRParen_extends (eof : Bool) (bytes more : Bytes) :
    (lexRParen false bytes).Extends (lexRParen eof (bytes ++ more)) := by
  unfold lexRParen
  cases second : bytes[1]? with
  | none => exact extends_needMore _
  | some b =>
      rw [getElem?_longer more second]
      cases third : bytes[2]? with
      | none =>
          by_cases closes : b = 0x3E
          · dsimp only
            rw [if_pos ⟨closes, rfl⟩]
            exact extends_needMore _
          · cases (bytes ++ more)[2]? with
            | none =>
                dsimp only
                rw [if_neg fun h => closes h.1, if_neg fun h => closes h.1]
                exact .refl _
            | some c =>
                dsimp only
                rw [if_neg fun h => closes h.1, if_neg fun h => closes h.1]
                exact .refl _
      | some c =>
          rw [getElem?_longer more third]
          exact .refl _

/-- A token that is read, or refused, without more input is read or refused so behind more. -/
theorem lexToken_extends (eof trusted : Bool) (bytes more : Bytes) :
    (lexToken false trusted bytes).Extends (lexToken eof trusted (bytes ++ more)) := by
  cases bytes with
  | nil => exact extends_needMore _
  | cons b rest =>
      have some_ : b :: rest ≠ [] := List.cons_ne_nil b rest
      unfold lexToken
      rw [List.cons_append]
      cases kind : opening b <;> simp only [kind]
      case lt => exact lexLt_extends eof trusted some_ more
      case quote => exact lexString_extends eof trusted b some_ more
      case underscore => exact lexBlank_extends eof _ more
      case atSign => exact lexAt_extends eof some_ more
      case number => exact lexNumber_extends eof some_ more
      case dot => exact lexDot_extends eof some_ more
      case rParen => exact lexRParen_extends eof _ more
      case lBrace => exact lexPair_extends eof _ more _ _ _
      case bar => exact lexPair_extends eof _ more _ _ _
      case caret => exact lexPair_extends eof _ more _ _ _
      case gt => exact lexPair_extends eof _ more _ _ _
      case punct => exact .refl _
      case word => exact lexWord_extends eof some_ more

end Graphy.Turtle
