import Graphy.Core.Proofs.Concise
import Graphy.Core.Proofs.Text
import Graphy.Turtle.Highlight

/-!
# Where scans end

Every branch of the tokenizer, with the bytes it fails or ends at.  A scan asks for more
input only where more may come, its errors lie inside the bytes it was given, and so does the
end of what it reads.
-/

namespace Graphy.Turtle

namespace Scan

variable {α β : Type} {eof : Bool} {len : Nat} {P : α → Prop} {Q : β → Prop}

/-- How a scan of `len` bytes goes that reads what `P` tells.  Only at the end of the input is
an error behind the bytes. -/
def Settled (eof : Bool) (len : Nat) (P : α → Prop) : Scan α → Prop
  | .needMore => eof = false
  | .error off _ => off ≤ len ∧ (eof = false → off < len)
  | .done a => P a

theorem settled_error {off : Nat} (lt : off < len) (message : String) :
    (Scan.error off message : Scan α).Settled eof len P := ⟨Nat.le_of_lt lt, fun _ => lt⟩

theorem settled_done {a : α} (h : P a) : (Scan.done a).Settled eof len P := h

theorem settled_ended {off : Nat} (le : off ≤ len) (message : String) :
    (ended eof off message : Scan α).Settled eof len P := by
  unfold ended
  split
  · rename_i ended
    exact ⟨le, fun more => Bool.noConfusion (ended.symm.trans more)⟩
  · rename_i more
    exact Bool.eq_false_iff.mpr more

theorem settled_bind {m : Scan α} {f : α → Scan β} (first : m.Settled eof len P)
    (next : ∀ a, P a → (f a).Settled eof len Q) : (m >>= f).Settled eof len Q := by
  cases m with
  | needMore => exact first
  | error off message => exact first
  | done a => exact next a first

theorem Settled.weaken {len' : Nat} {P' : α → Prop} {m : Scan α} (h : m.Settled eof len P)
    (le : len ≤ len') (weaker : ∀ a, P a → P' a) : m.Settled eof len' P' := by
  cases m with
  | needMore => exact h
  | error off message =>
      exact ⟨Nat.le_trans h.1 le, fun more => Nat.lt_of_lt_of_le (h.2 more) le⟩
  | done a => exact weaker a h

end Scan

open Scan

/-! ## Characters and escapes -/

theorem charAt_settled (eof : Bool) (off : Nat) {bytes : Bytes} (some_ : 0 < bytes.length) :
    (charAt eof off bytes).Settled eof (off + bytes.length)
      (fun r => 0 < r.2 ∧ r.2 ≤ bytes.length) := by
  have inside := Nat.lt_add_of_pos_right (n := off) some_
  have wide : ∀ r, charAt eof off bytes = .done r → 0 < r.2 := fun r => charAt_width
  generalize read : charAt eof off bytes = scan at wide ⊢
  unfold charAt at read
  split at read
  · subst read
    exact settled_error inside _
  · rename_i width found
    split at read
    · subst read
      exact settled_ended (Nat.le_of_lt inside) _
    · rename_i fits
      split at read
      · subst read
        exact ⟨wide _ rfl, Nat.le_of_not_lt fits⟩
      · subst read
        exact settled_error inside _

theorem charAt_cons_settled (eof : Bool) (off : Nat) (b : UInt8) (rest : Bytes) :
    (charAt eof off (b :: rest)).Settled eof (off + (b :: rest).length)
      (fun r => 0 < r.2 ∧ r.2 ≤ (b :: rest).length) :=
  charAt_settled eof off (by simp)

theorem hexChar_le {n used : Nat} {s : List Char} {c : Char} (h : hexChar n s = some (c, used)) :
    used ≤ s.length + 2 := by
  unfold hexChar at h
  simp only at h
  split at h
  · rename_i valid
    have length := valid.1
    rw [List.length_take] at length
    cases h
    omega
  · cases h

theorem decodeUchar_le {used : Nat} {s : List Char} {c : Char}
    (h : decodeUchar s = some (c, used)) : used ≤ s.length := by
  unfold decodeUchar at h
  split at h
  · exact hexChar_le h
  · exact hexChar_le h
  · cases h

theorem decodeEchar_le {used : Nat} {s : List Char} {c : Char}
    (h : decodeEchar s = some (c, used)) : used ≤ s.length := by
  unfold decodeEchar at h
  split at h
  all_goals cases h
  all_goals simp only [List.length_cons]
  all_goals omega

/-- An escape takes characters of the text. -/
def Bounded (escape : List Char → Except String (Char × Nat)) : Prop :=
  ∀ s c used, escape s = .ok (c, used) → used ≤ s.length

theorem iriEscape_bounded : Bounded iriEscape := by
  intro s c used h
  unfold iriEscape at h
  split at h
  · cases h
  · rename_i d n found
    split at h
    · cases h
    · cases h
      exact decodeUchar_le found

theorem stringEscape_bounded : Bounded stringEscape := by
  intro s c used h
  unfold stringEscape at h
  split at h
  · cases h
  · rename_i r found
    cases h
    rcases Option.or_eq_some_iff.mp found with single | ⟨-, unicode⟩
    · exact decodeEchar_le single
    · exact decodeUchar_le unicode

theorem length_encode_cons (c : Char) (s : List Char) :
    (Utf8.encode (c :: s)).length = c.utf8Size + (Utf8.encode s).length := by
  rw [Utf8.encode_cons, List.length_append, String.length_utf8EncodeChar]

/-- Dropping characters drops at least as many bytes. -/
theorem length_encode_drop {n : Nat} {s : List Char} (le : n ≤ s.length) :
    n + (Utf8.encode (s.drop n)).length ≤ (Utf8.encode s).length := by
  induction s generalizing n with
  | nil =>
      have none : n = 0 := by simpa using le
      subst none
      simp
  | cons c s ih =>
      cases n with
      | zero => simp
      | succ n =>
          have rest := ih (Nat.le_of_succ_le_succ le)
          have := c.utf8Size_pos
          rw [List.drop_succ_cons, length_encode_cons]
          omega

theorem unescape_settled {escape : List Char → Except String (Char × Nat)}
    (bounded : Bounded escape) (eof : Bool) (off : Nat) (s : List Char) :
    (unescape escape off s).Settled eof (off + (Utf8.encode s).length) (fun _ => True) := by
  fun_induction unescape escape off s with
  | case1 off => trivial
  | case2 off s message refused =>
      have length := length_encode_cons '\\' s
      have := ('\\' : Char).utf8Size_pos
      exact settled_error (by omega) message
  | case3 off s d used decoded ih =>
      have length := length_encode_cons '\\' s
      have one : ('\\' : Char).utf8Size = 1 := rfl
      refine settled_bind (ih.weaken ?_ fun _ _ => trivial) fun _ _ => trivial
      rcases Nat.eq_zero_or_pos used with zero | some_
      · subst zero
        simp only [Nat.zero_sub, List.drop_zero]
        omega
      · have le := bounded _ _ _ decoded
        have dropped := length_encode_drop (n := used - 1) (s := s) (by
          rw [List.length_cons] at le
          omega)
        omega
  | case4 off c s plain ih =>
      have length := length_encode_cons c s
      exact settled_bind (ih.weaken (by omega) fun _ _ => trivial) fun _ _ => trivial

theorem length_of_utf8 {bytes : Bytes} {s : String} (h : utf8 bytes = .ok s) :
    (Utf8.encode s.toList).length = bytes.length := by
  rw [← strBytes_eq_encode, strBytes_of_utf8 h]

/-- A word of the bytes; that of a prefixed name holds a colon. -/
def Word (bytes : Bytes) (r : Nat × Token) : Prop :=
  r.1 ≤ bytes.length ∧ (r.2.kind = .prefixName → 0x3A ∈ bytes.take r.1)

theorem word_of_le {bytes : Bytes} {n : Nat} {t : Token} (le : n ≤ bytes.length)
    (other : t.kind ≠ .prefixName) : Word bytes (n, t) :=
  ⟨le, fun named => absurd named other⟩

theorem getElem?_le {bytes : Bytes} {i : Nat} {b : UInt8} (h : bytes[i]? = some b) :
    i + 1 ≤ bytes.length := (List.getElem?_eq_some_iff.mp h).1

/-! ## IRIs and strings -/

theorem idxOf?_lt {bytes : Bytes} {b : UInt8} {i : Nat} (h : bytes.idxOf? b = some i) :
    i < bytes.length := by
  rw [List.idxOf?, List.findIdx?_eq_some_iff_getElem] at h
  exact h.1

theorem forbiddenAt_lt {trusted : Bool} {content : Bytes} {i : Nat}
    (h : forbiddenAt trusted content = some i) : i < content.length := by
  unfold forbiddenAt at h
  split at h
  · cases h
  · exact (List.findIdx?_eq_some_iff_getElem.mp h).1

theorem lexIriref_settled (eof trusted : Bool) (bytes : Bytes) :
    (lexIriref eof trusted bytes).Settled eof bytes.length (Word bytes) := by
  unfold lexIriref
  split
  · exact settled_ended (Nat.zero_le _) _
  · rename_i gt found
    have inside := idxOf?_lt found
    have length : ((bytes.drop 1).take gt).length = gt := by
      rw [List.length_take, Nat.min_eq_left (Nat.le_of_lt inside)]
    rw [List.length_drop] at inside
    simp only
    split
    · rename_i i bad
      have := forbiddenAt_lt bad
      exact settled_error (by omega) _
    · split
      · exact settled_error (by omega) _
      · rename_i s read
        have same := length_of_utf8 read
        refine settled_bind ((unescape_settled iriEscape_bounded eof 1 _).weaken (by omega)
          fun _ h => h) ?_
        intro text _
        exact settled_done (word_of_le (by omega) (by simp [Token.kind]))

theorem lexLt_settled (eof trusted : Bool) (bytes : Bytes) :
    (lexLt eof trusted bytes).Settled eof bytes.length (Word bytes) := by
  unfold lexLt
  split
  · split
    · exact lexIriref_settled eof trusted bytes
    · rename_i more
      exact Bool.eq_false_iff.mpr more
  · rename_i b second
    have two := getElem?_le second
    split
    · split
      · split
        · exact settled_done (word_of_le two (by simp [Token.kind]))
        · rename_i more
          exact Bool.eq_false_iff.mpr more
      · rename_i c third
        have three := getElem?_le third
        split
        · exact settled_done (word_of_le three (by simp [Token.kind]))
        · exact settled_done (word_of_le two (by simp [Token.kind]))
    · exact lexIriref_settled eof trusted bytes

theorem scanShort_settled (eof trusted : Bool) (q : UInt8) (k : Nat) (escaped : Bool)
    (bytes : Bytes) :
    (scanShort eof trusted q k escaped bytes).Settled eof (k + bytes.length)
      (fun r => k ≤ r.1 ∧ r.1 < k + bytes.length) := by
  fun_induction scanShort eof trusted q k escaped bytes with
  | case1 => exact settled_ended (Nat.zero_le _) _
  | case2 k escaped rest =>
      refine settled_done ⟨Nat.le_refl k, ?_⟩
      rw [List.length_cons]
      omega
  | case3 k escaped h => exact settled_ended (Nat.le_add_right _ _) _
  | case4 k escaped h b rest ih =>
      refine ih.weaken ?_ ?_
      · simp only [List.length_cons]
        omega
      · rintro r ⟨low, high⟩
        simp only [List.length_cons]
        omega
  | case5 k escaped b rest h1 h2 h3 => exact settled_error (Nat.lt_add_of_pos_right (Nat.succ_pos _)) _
  | case6 k escaped b rest h1 h2 h3 ih =>
      refine ih.weaken ?_ ?_
      · simp only [List.length_cons]
        omega
      · rintro r ⟨low, high⟩
        simp only [List.length_cons]
        omega

theorem finishStringContent_settled (eof : Bool) (off : Nat) (content : Bytes) :
    (finishStringContent off content).Settled eof (off + content.length + 1) (fun _ => True) := by
  unfold finishStringContent
  split
  · exact settled_error (Nat.lt_succ_of_le (Nat.le_add_right _ _)) _
  · rename_i s read
    have same := length_of_utf8 read
    exact settled_bind ((unescape_settled stringEscape_bounded eof off _).weaken (by omega)
      fun _ h => h) fun _ _ => trivial

theorem lexShortString_settled {eof trusted : Bool} {q : UInt8} {bytes : Bytes}
    (some_ : 1 ≤ bytes.length) :
    (lexShortString eof trusted q bytes).Settled eof bytes.length (Word bytes) := by
  unfold lexShortString
  have rest : (bytes.drop 1).length = bytes.length - 1 := List.length_drop
  refine settled_bind ((scanShort_settled eof trusted q 1 false (bytes.drop 1)).weaken
    (by omega) fun _ h => h) ?_
  rintro ⟨ce, escaped⟩ ⟨low, high⟩
  simp only at low high
  have length : ((bytes.drop 1).take (ce - 1)).length = ce - 1 := by
    rw [List.length_take, Nat.min_eq_left (by omega)]
  have finish : (do
      let text ← finishStringContent 1 ((bytes.drop 1).take (ce - 1))
      return (ce + 1, Token.string text false (q == 0x27)) : Scan (Nat × Token)).Settled eof
        bytes.length (Word bytes) := by
    refine settled_bind ((finishStringContent_settled eof 1 _).weaken (by omega) fun _ h => h) ?_
    intro text _
    exact settled_done (word_of_le (by omega) (by simp [Token.kind]))
  simp only
  split
  · exact finish
  · rename_i r found
    have inside : r < ((bytes.drop 1).take (ce - 1)).length := by
      split at found
      · cases found
      · exact idxOf?_lt found
    split
    · exact finish
    · exact settled_error (by omega) _

theorem length_takeWhile_le {α : Type} (p : α → Bool) (l : List α) :
    (l.takeWhile p).length ≤ l.length := (List.takeWhile_sublist p).length_le

theorem scanLong_settled (eof : Bool) (q : UInt8) (k : Nat) (bytes : Bytes) :
    (scanLong eof q k bytes).Settled eof (k + bytes.length)
      (fun ce => k ≤ ce ∧ ce + 3 ≤ k + bytes.length) := by
  fun_induction scanLong eof q k bytes with
  | case1 => exact settled_ended (Nat.zero_le _) _
  | case2 k => exact settled_ended (Nat.le_add_right _ _) _
  | case3 k b rest ih =>
      simp only [List.length_cons]
      refine ih.weaken (by omega) ?_
      rintro ce ⟨low, high⟩
      omega
  | case4 k rest run notEscape more =>
      rw [if_pos more]
      exact more.2
  | case5 k rest run long notEscape more =>
      rw [if_neg more, if_pos long]
      exact settled_error (Nat.lt_add_of_pos_right (Nat.succ_pos _)) _
  | case6 k rest run notLong three notEscape more =>
      rw [if_neg more, if_neg notLong, if_pos three]
      have := length_takeWhile_le (· == q) rest
      refine settled_done ⟨Nat.le_refl k, ?_⟩
      rw [List.length_cons]
      omega
  | case7 k rest run notLong notThree notEscape more ih =>
      rw [if_neg more, if_neg notLong, if_neg notThree]
      have := length_takeWhile_le (· == q) rest
      have length : run = 1 + (rest.takeWhile (· == q)).length := rfl
      rw [List.length_drop] at ih
      rw [List.length_cons]
      refine ih.weaken (by omega) ?_
      rintro ce ⟨low, high⟩
      omega
  | case8 k b rest h1 h2 ih =>
      simp only [List.length_cons]
      refine ih.weaken (by omega) ?_
      rintro ce ⟨low, high⟩
      omega

theorem lexLongString_settled {eof : Bool} {q : UInt8} {bytes : Bytes}
    (some_ : 3 ≤ bytes.length) :
    (lexLongString eof q bytes).Settled eof bytes.length (Word bytes) := by
  unfold lexLongString
  have rest : (bytes.drop 3).length = bytes.length - 3 := List.length_drop
  refine settled_bind ((scanLong_settled eof q 3 (bytes.drop 3)).weaken (by omega)
    fun _ h => h) ?_
  rintro ce ⟨low, high⟩
  have length : ((bytes.drop 3).take (ce - 3)).length = ce - 3 := by
    rw [List.length_take, Nat.min_eq_left (by omega)]
  refine settled_bind ((finishStringContent_settled eof 3 _).weaken (by omega) fun _ h => h) ?_
  intro text _
  exact settled_done (word_of_le (by omega) (by simp [Token.kind]))

theorem lexString_settled {eof trusted : Bool} {q : UInt8} {bytes : Bytes}
    (some_ : 1 ≤ bytes.length) :
    (lexString eof trusted q bytes).Settled eof bytes.length (Word bytes) := by
  unfold lexString
  split
  · rename_i b c second third
    have three := getElem?_le third
    split
    · split
      · exact lexLongString_settled three
      · exact settled_done (word_of_le (by omega) (by simp [Token.kind]))
    · exact lexShortString_settled some_
  · rename_i b second third
    have two := getElem?_le second
    split
    · split
      · exact settled_done (word_of_le (by omega) (by simp [Token.kind]))
      · rename_i more
        exact Bool.eq_false_iff.mpr more
    · exact lexShortString_settled some_
  · exact settled_ended (Nat.zero_le _) _

/-! ## Labels and tags -/

theorem scanLabel_settled (eof : Bool) {i stop : Nat} (bytes : Bytes) (le : stop ≤ i) :
    (scanLabel eof i stop bytes).Settled eof (i + bytes.length)
      (fun n => n ≤ i + bytes.length) := by
  fun_induction scanLabel eof i stop bytes with
  | case1 => exact settled_done (Nat.le_add_right_of_le le)
  | case2 i stop more => exact Bool.eq_false_iff.mpr more
  | case3 i stop rest ih =>
      rw [List.length_cons]
      exact (ih (by omega)).weaken (by omega) fun n high => by omega
  | case4 i stop b rest notDot read =>
      have decoded := charAt_cons_settled eof i b rest
      rw [read] at decoded
      exact decoded
  | case5 i stop b rest notDot off message read =>
      have decoded := charAt_cons_settled eof i b rest
      rw [read] at decoded
      exact decoded
  | case6 i stop b rest notDot c w read pn ih =>
      have decoded := charAt_cons_settled eof i b rest
      rw [read] at decoded
      obtain ⟨wide, fits⟩ := decoded
      simp only [List.length_cons] at fits wide
      have settled := ih (Nat.le_refl _)
      rw [List.length_drop] at settled
      rw [List.length_cons]
      exact settled.weaken (by omega) fun n high => by omega
  | case7 i stop b rest notDot c w read pn => exact settled_done (Nat.le_add_right_of_le le)

theorem lexBlank_settled (eof : Bool) (bytes : Bytes) :
    (lexBlank eof bytes).Settled eof bytes.length (Word bytes) := by
  unfold lexBlank
  split
  · exact settled_ended (Nat.zero_le _) _
  · rename_i b second
    have two := getElem?_le second
    have rest : (bytes.drop 2).length = bytes.length - 2 := List.length_drop
    split
    · exact settled_error (by omega) _
    · split
      · exact settled_ended (Nat.zero_le _) _
      · rename_i more
        have some_ : 0 < (bytes.drop 2).length := List.length_pos_iff.mpr more
        refine settled_bind ((charAt_settled eof 2 some_).weaken (by omega) fun _ h => h) ?_
        rintro ⟨c, w⟩ ⟨wide, fits⟩
        simp only at wide fits ⊢
        split
        · have label := scanLabel_settled eof (bytes.drop (2 + w))
            (Nat.le_refl (2 + w))
          rw [List.length_drop] at label
          refine settled_bind (label.weaken (by omega) fun _ h => h) ?_
          intro stop high
          exact settled_done (word_of_le (by omega) (by simp [Token.kind]))
        · exact settled_error (by omega) _

theorem scanSubtags_settled (eof : Bool) (i : Nat) (bytes : Bytes) :
    (scanSubtags eof i bytes).Settled eof (i + bytes.length)
      (fun r => r.2.1 ≤ r.1 ∧ r.1 ≤ i + bytes.length) := by
  fun_induction scanSubtags eof i bytes with
  | case1 i => exact settled_done ⟨Nat.le_refl i, Nat.le_add_right _ _⟩
  | case2 i b rest other => exact settled_done ⟨Nat.le_refl i, Nat.le_add_right _ _⟩
  | case3 i b dash ended => exact settled_done ⟨Nat.le_refl i, Nat.le_add_right _ _⟩
  | case4 i b dash more => exact Bool.eq_false_iff.mpr more
  | case5 i b dash rest letters more => exact more.2
  | case6 i b dash rest letters closed ltr =>
      have : letters.length ≤ rest.length := length_takeWhile_le isAsciiAlphabeticByte rest
      refine settled_done ⟨?_, ?_⟩
      · exact Nat.le_trans (Nat.le_add_right i 2) (Nat.le_add_right _ _)
      · simp only [List.length_cons]
        omega
  | case7 i b dash rest letters closed notLtr rtl =>
      have : letters.length ≤ rest.length := length_takeWhile_le isAsciiAlphabeticByte rest
      refine settled_done ⟨?_, ?_⟩
      · exact Nat.le_trans (Nat.le_add_right i 2) (Nat.le_add_right _ _)
      · simp only [List.length_cons]
        omega
  | case8 i b dash rest letters closed notLtr notRtl => exact settled_error (Nat.lt_add_of_pos_right (Nat.succ_pos _)) _
  | case9 i b dash c rest notDash letter sub more => exact more.2
  | case10 i b dash c rest notDash letter sub closed long =>
      refine settled_error ?_ _
      simp only [List.length_cons]
      omega
  | case11 i b dash c rest notDash letter sub closed short ih =>
      have : sub.length ≤ (c :: rest).length := length_takeWhile_le isAsciiAlphanumericByte _
      rw [List.length_drop] at ih
      simp only [List.length_cons] at this ih ⊢
      exact ih.weaken (by omega) fun r high => ⟨high.1, by omega⟩
  | case12 i b dash c rest notDash other => exact settled_done ⟨Nat.le_refl i, Nat.le_add_right _ _⟩

theorem lexTag_settled {eof : Bool} {bytes primary : Bytes}
    (le : 1 + primary.length ≤ bytes.length) :
    (lexTag eof bytes primary).Settled eof bytes.length (Word bytes) := by
  unfold lexTag
  split
  · exact settled_error (by omega) _
  · have tag := scanSubtags_settled eof (1 + primary.length) (bytes.drop (1 + primary.length))
    rw [List.length_drop] at tag
    refine settled_bind (tag.weaken (by omega) fun _ h => h) ?_
    rintro ⟨stop, tagEnd, dir⟩ ⟨-, high⟩
    simp only at high
    exact settled_done (word_of_le (by omega) (by simp [Token.kind]))

theorem directiveAt_kind {primary : Bytes} {t : Token} (h : directiveAt primary = some t) :
    t.kind = .keyword := by
  unfold directiveAt at h
  repeat' split at h
  all_goals cases h
  all_goals rfl

theorem lexAt_settled {eof : Bool} {bytes : Bytes} (some_ : 1 ≤ bytes.length) :
    (lexAt eof bytes).Settled eof bytes.length (Word bytes) := by
  unfold lexAt
  have letters := length_takeWhile_le isAsciiAlphabeticByte (bytes.drop 1)
  rw [List.length_drop] at letters
  simp only
  split
  · rename_i more
    exact more.2
  · split
    · exact settled_error some_ _
    · split
      · rename_i t found
        have keyword : t.kind = .keyword := by
          split at found
          · cases found
          · exact directiveAt_kind found
        exact settled_done (word_of_le (by omega) (by rw [keyword]; decide))
      · exact lexTag_settled (by omega)

/-! ## Numbers -/

theorem digitsAt_le {bytes : Bytes} {i : Nat} (le : i ≤ bytes.length) :
    i + digitsAt bytes i ≤ bytes.length := by
  have := length_takeWhile_le isAsciiDigitByte (bytes.drop i)
  rw [List.length_drop] at this
  unfold digitsAt
  omega

theorem signAt_le {bytes : Bytes} {i : Nat} (le : i ≤ bytes.length) :
    i + signAt bytes i ≤ bytes.length := by
  unfold signAt
  split
  · rename_i signed
    rcases signed with plus | minus
    · exact getElem?_le plus
    · exact getElem?_le minus
  · exact le

theorem scanExponent_settled (eof : Bool) {bytes : Bytes} {e : Nat} (le : e + 1 ≤ bytes.length) :
    (scanExponent eof bytes e).Settled eof bytes.length (fun n => n ≤ bytes.length) := by
  have digits := digitsAt_le (signAt_le le)
  unfold scanExponent
  simp only
  split
  · rename_i more
    exact more.2
  · split
    · exact settled_error (by omega) _
    · exact settled_done digits

theorem isExponentMark_le {bytes : Bytes} {i : Nat} (h : isExponentMark bytes[i]? = true) :
    i + 1 ≤ bytes.length := by
  cases found : bytes[i]? with
  | none =>
      rw [found] at h
      cases h
  | some b => exact getElem?_le found

theorem lexNumber_settled (eof : Bool) {bytes : Bytes} (some_ : 0 < bytes.length) :
    (lexNumber eof bytes).Settled eof bytes.length (Word bytes) := by
  have whole := digitsAt_le (signAt_le (Nat.zero_le bytes.length))
  rw [Nat.zero_add] at whole
  have double : ∀ e, e + 1 ≤ bytes.length → (do
      let stop ← scanExponent eof bytes e
      return (stop, Token.double (textOf (bytes.take stop))) : Scan (Nat × Token)).Settled eof
        bytes.length (Word bytes) := by
    intro e le
    refine settled_bind (scanExponent_settled eof le) ?_
    intro stop high
    exact settled_done (word_of_le high (by simp [Token.kind]))
  unfold lexNumber
  simp only
  split
  · rename_i more
    exact more.2
  · split
    · rename_i dot
      have fraction := digitsAt_le (getElem?_le dot)
      split
      · rename_i more
        exact more.2
      · split
        · rename_i exponent
          exact double _ (isExponentMark_le exponent.1)
        · split
          · exact settled_done (word_of_le fraction (by simp [Token.kind]))
          · split
            · exact settled_done (word_of_le whole (by simp [Token.kind]))
            · exact settled_error some_ _
    · split
      · rename_i exponent
        exact double _ (isExponentMark_le exponent.1)
      · split
        · exact settled_done (word_of_le whole (by simp [Token.kind]))
        · exact settled_error some_ _

/-! ## Words -/

theorem scanLocal_settled (eof : Bool) {i stop : Nat} (first : Bool) (dots text bytes : Bytes)
    (le : stop ≤ i) :
    (scanLocal eof i stop first dots text bytes).Settled eof (i + bytes.length)
      (fun r => stop ≤ r.1 ∧ r.1 ≤ i + bytes.length) := by
  fun_induction scanLocal eof i stop first dots text bytes with
  | case1 i stop first dots text => exact settled_done ⟨Nat.le_refl _, Nat.le_add_right_of_le le⟩
  | case2 i stop first dots text more => exact Bool.eq_false_iff.mpr more
  | case3 i stop first dots text x y rest hex ih =>
      simp only [List.length_cons]
      exact (ih (Nat.le_refl _)).weaken (by omega) fun r high => by omega
  | case4 => exact settled_error (Nat.lt_add_of_pos_right (Nat.succ_pos _)) _
  | case5 => exact settled_ended (Nat.le_add_right _ _) _
  | case6 => exact settled_ended (Nat.le_add_right _ _) _
  | case7 i stop first dots text x rest allowed _ ih =>
      simp only [List.length_cons]
      exact (ih (Nat.le_refl _)).weaken (by omega) fun r high => by omega
  | case8 => exact settled_error (Nat.lt_add_of_pos_right (Nat.succ_pos _)) _
  | case9 i stop first dots text rest _ _ ih =>
      simp only [List.length_cons]
      exact (ih (Nat.le_refl _)).weaken (by omega) fun r high => by omega
  | case10 i stop first dots text b rest _ _ _ dot ih =>
      simp only [List.length_cons]
      exact (ih (by omega)).weaken (by omega) fun r high => by omega
  | case11 i stop first dots text b rest _ _ _ _ read =>
      have decoded := charAt_cons_settled eof i b rest
      rw [read] at decoded
      exact decoded
  | case12 i stop first dots text b rest _ _ _ _ off message read =>
      have decoded := charAt_cons_settled eof i b rest
      rw [read] at decoded
      exact decoded
  | case13 i stop first dots text b rest _ _ _ _ c w read pn ih =>
      have decoded := charAt_cons_settled eof i b rest
      rw [read] at decoded
      obtain ⟨wide, fits⟩ := decoded
      have settled := ih (Nat.le_refl _)
      rw [List.length_drop] at settled
      simp only [List.length_cons] at wide fits ⊢
      exact settled.weaken (by omega) fun r high => by omega
  | case14 => exact settled_done ⟨Nat.le_refl _, Nat.le_add_right_of_le le⟩

theorem scanPrefix_settled (eof : Bool) {i stop : Nat} (bytes : Bytes) (le : stop ≤ i) :
    (scanPrefix eof i stop bytes).Settled eof (i + bytes.length)
      (fun r => r.2 ≤ i + bytes.length ∧ (eof = false → r.2 < i + bytes.length)) := by
  fun_induction scanPrefix eof i stop bytes with
  | case1 i stop ended =>
      exact settled_done
        ⟨Nat.le_add_right_of_le le, fun more => Bool.noConfusion (ended.symm.trans more)⟩
  | case2 i stop more => exact Bool.eq_false_iff.mpr more
  | case3 i stop rest ih =>
      rw [List.length_cons]
      exact (ih (by omega)).weaken (by omega) fun r high =>
        ⟨by omega, fun more => by have := high.2 more; omega⟩
  | case4 i stop rest =>
      rw [List.length_cons]
      exact settled_done (by omega)
  | case5 i stop b rest _ _ read =>
      have decoded := charAt_cons_settled eof i b rest
      rw [read] at decoded
      exact decoded
  | case6 i stop b rest _ _ off message read =>
      have decoded := charAt_cons_settled eof i b rest
      rw [read] at decoded
      exact decoded
  | case7 i stop b rest _ _ c w read pn ih =>
      have decoded := charAt_cons_settled eof i b rest
      rw [read] at decoded
      obtain ⟨wide, fits⟩ := decoded
      have settled := ih (Nat.le_refl _)
      rw [List.length_drop] at settled
      simp only [List.length_cons] at wide fits ⊢
      exact settled.weaken (by omega) fun r high =>
        ⟨by omega, fun more => by have := high.2 more; omega⟩
  | case8 i stop b rest =>
      rw [List.length_cons]
      exact settled_done (by omega)

/-- The word of a prefixed name reaches past its colon. -/
theorem lexPname_settled (eof : Bool) {bytes : Bytes} {colon : Nat}
    (found : bytes[colon]? = some 0x3A) :
    (lexPname eof bytes colon).Settled eof bytes.length (Word bytes) := by
  have le := getElem?_le found
  unfold lexPname
  have name := scanLocal_settled eof true [] [] (bytes.drop (colon + 1)) (Nat.le_refl (colon + 1))
  rw [List.length_drop] at name
  refine settled_bind (name.weaken (by omega) fun _ h => h) ?_
  rintro ⟨stop, text⟩ ⟨low, high⟩
  simp only at low high
  refine settled_done ⟨by omega, fun _ => ?_⟩
  refine List.mem_of_getElem? (i := colon) ?_
  rw [List.getElem?_take, if_pos (show colon < stop from low), found]

theorem keyword_kind {word : String} {t : Token} (h : keyword word = some t) :
    t.kind ≠ .prefixName := by
  unfold keyword at h
  repeat' split at h
  all_goals cases h
  all_goals simp [Token.kind]

theorem lexWord_settled (eof : Bool) {bytes : Bytes} (some_ : 0 < bytes.length) :
    (lexWord eof bytes).Settled eof bytes.length (Word bytes) := by
  unfold lexWord
  split
  · rename_i head
    exact lexPname_settled eof (by rw [← List.head?_eq_getElem?, head])
  · refine settled_bind ((charAt_settled eof 0 some_).weaken (by omega) fun _ h => h) ?_
    rintro ⟨c, w⟩ ⟨wide, fits⟩
    simp only at wide fits ⊢
    split
    · have behind := scanPrefix_settled eof (bytes.drop w) (Nat.le_refl w)
      rw [List.length_drop] at behind
      refine settled_bind (behind.weaken (by omega) fun _ h => h) ?_
      rintro ⟨i, stop⟩ ⟨high, inside⟩
      simp only at high inside ⊢
      split
      · rename_i colon
        exact lexPname_settled eof colon.1
      · split
        · rename_i t found
          exact settled_done (word_of_le (by omega) (keyword_kind found))
        · exact ⟨by omega, fun more => by have := inside more; omega⟩
    · exact settled_error some_ _

/-! ## Tokens -/

theorem lexPair_settled {eof : Bool} {bytes : Bytes} {second : UInt8} {both : Token}
    {alone : Scan (Nat × Token)} (other : both.kind ≠ .prefixName)
    (single : alone.Settled eof bytes.length (Word bytes)) :
    (lexPair eof bytes second both alone).Settled eof bytes.length (Word bytes) := by
  unfold lexPair
  split
  · split
    · exact single
    · rename_i more
      exact Bool.eq_false_iff.mpr more
  · rename_i b found
    split
    · exact settled_done (word_of_le (getElem?_le found) other)
    · exact single

theorem lexDot_settled {eof : Bool} {bytes : Bytes} (some_ : 1 ≤ bytes.length) :
    (lexDot eof bytes).Settled eof bytes.length (Word bytes) := by
  have dot : (Scan.done (1, Token.dot)).Settled eof bytes.length (Word bytes) :=
    settled_done (word_of_le some_ (by simp [Token.kind]))
  unfold lexDot
  split
  · split
    · exact dot
    · rename_i more
      exact Bool.eq_false_iff.mpr more
  · split
    · exact lexNumber_settled eof some_
    · exact dot

theorem lexRParen_settled {eof : Bool} {bytes : Bytes} (some_ : 1 ≤ bytes.length) :
    (lexRParen eof bytes).Settled eof bytes.length (Word bytes) := by
  have paren : (Scan.done (1, Token.rParen)).Settled eof bytes.length (Word bytes) :=
    settled_done (word_of_le some_ (by simp [Token.kind]))
  unfold lexRParen
  split
  · rename_i b c second third
    split
    · exact settled_done (word_of_le (getElem?_le third) (by simp [Token.kind]))
    · exact paren
  · split
    · rename_i more
      exact more.2
    · exact paren
  · split
    · exact paren
    · rename_i more
      exact Bool.eq_false_iff.mpr more

theorem branch_of_ite {α : Type} {p : Prop} [Decidable p] {x y z : α}
    (h : (if p then x else y) = z) : x = z ∨ y = z := by
  split at h
  · exact .inl h
  · exact .inr h

theorem opening_punct {b : UInt8} {t : Token} (h : opening b = .punct t) :
    t.kind ≠ .prefixName := by
  unfold opening at h
  repeat
    rcases branch_of_ite h with h | h
    · cases h <;> simp [Token.kind]
  cases h

/-- What the tokenizer makes of the bytes of a token. -/
theorem lexToken_settled (eof trusted : Bool) {bytes : Bytes} (some_ : bytes ≠ []) :
    (lexToken eof trusted bytes).Settled eof bytes.length (Word bytes) := by
  have one : 1 ≤ bytes.length := List.length_pos_iff.mpr some_
  have refused : ∀ message : String,
      (Scan.error 0 message).Settled eof bytes.length (Word bytes) :=
    settled_error one
  have brace : (Scan.done (1, Token.lBrace)).Settled eof bytes.length (Word bytes) :=
    settled_done (word_of_le one (by simp [Token.kind]))
  cases bytes with
  | nil => exact absurd rfl some_
  | cons b rest =>
      unfold lexToken
      cases kind : opening b <;> simp only [kind]
      case lt => exact lexLt_settled eof trusted _
      case quote => exact lexString_settled one
      case underscore => exact lexBlank_settled eof _
      case atSign => exact lexAt_settled one
      case number => exact lexNumber_settled eof one
      case dot => exact lexDot_settled one
      case rParen => exact lexRParen_settled one
      case lBrace => exact lexPair_settled (by simp [Token.kind]) brace
      case bar => exact lexPair_settled (by simp [Token.kind]) (refused _)
      case caret => exact lexPair_settled (by simp [Token.kind]) (refused _)
      case gt => exact lexPair_settled (by simp [Token.kind]) (refused _)
      case punct t => exact settled_done (word_of_le one (opening_punct kind))
      case word => exact lexWord_settled eof one

end Graphy.Turtle
