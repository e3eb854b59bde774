import Graphy.Core.Concise

/-!
# How canonical the concise encoding is

A decoded term, taken apart down to its leaves, is encoded again and compared with
the bytes it came from.  The two differ exactly when a component length, at some
level of a triple term, is spelled with more varint bytes than it needs.
-/

namespace Graphy

/-! ## Strings -/

theorem strBytes_of_utf8 {bytes : Bytes} {s : String} (h : utf8 bytes = .ok s) :
    strBytes s = bytes := by
  simp only [utf8, String.fromUTF8?] at h
  split at h
  · rename_i found
    split at found
    · cases h
      cases found
      rfl
    · cases found
  · cases h

/-! ## Varints -/

namespace Varint

theorem write_ne_nil (v : Nat) : write v ≠ [] := by
  rw [write]
  split
  · simp
  · simp

theorem length_write_mono {v w : Nat} (h : v ≤ w) : (write v).length ≤ (write w).length := by
  induction w using Nat.strongRecOn generalizing v with
  | ind w ih =>
      have hv := write.eq_def v
      have hw := write.eq_def w
      by_cases small : v / 128 = 0
      · rw [if_pos small] at hv
        rw [hv]
        exact List.length_pos_iff.mpr (write_ne_nil w)
      · rw [if_neg small] at hv
        rw [if_neg (show ¬ w / 128 = 0 by omega)] at hw
        have tails := ih (w / 128) (by omega) (show v / 128 ≤ w / 128 by omega)
        rw [hv, hw]
        simpa using tails

/-- Each byte takes seven bits. -/
theorem length_write_le {k v : Nat} (h : v < 128 ^ (k + 1)) : (write v).length ≤ k + 1 := by
  induction k generalizing v with
  | zero =>
      rw [write, if_pos (by omega)]
      simp
  | succ k ih =>
      rw [write]
      split
      · simp
      · have tail := ih (v := v / 128) (by omega)
        simpa using tail

/-- The bytes spell the value, perhaps with zero groups at the end. -/
inductive Spells : Nat → Bytes → Prop where
  | last {b : UInt8} (h : b.toNat < 128) : Spells b.toNat [b]
  | more {b : UInt8} {v : Nat} {rest : Bytes} (h : 128 ≤ b.toNat) (tail : Spells v rest) :
      Spells (b.toNat % 128 + 128 * v) (b :: rest)

theorem Spells.ne_nil {v : Nat} {bytes : Bytes} (h : Spells v bytes) : bytes ≠ [] := by
  cases h <;> simp

theorem Spells.length_write_le {v : Nat} {bytes : Bytes} (h : Spells v bytes) :
    (write v).length ≤ bytes.length := by
  induction h with
  | last h =>
      rw [write, if_pos (by omega)]
      simp
  | more h tail ih =>
      rename_i b v rest
      rw [write]
      split
      · simp
      · have group : (b.toNat % 128 + 128 * v) / 128 = v := by omega
        rw [group]
        simpa using ih

/-- A spelling of the least length is the written one. -/
theorem Spells.eq_write {v : Nat} {bytes : Bytes} (h : Spells v bytes)
    (least : bytes.length = (write v).length) : bytes = write v := by
  induction h with
  | last h =>
      rename_i b
      rw [write, if_pos (by omega), Nat.mod_eq_of_lt h, UInt8.ofNat_toNat]
  | more h tail ih =>
      rename_i b v rest
      have group : (b.toNat % 128 + 128 * v) / 128 = v := by omega
      have low : (b.toNat % 128 + 128 * v) % 128 = b.toNat % 128 := by omega
      have lt : b.toNat < 256 := b.toNat_lt
      rw [write] at least ⊢
      by_cases zero : v = 0
      · have some_ := List.length_pos_iff.mpr tail.ne_nil
        rw [if_pos (by omega)] at least
        simp only [List.length_cons, List.length_nil] at least
        omega
      · rw [if_neg (by omega), group] at least ⊢
        rw [low, show b.toNat % 128 + 128 = b.toNat by omega, UInt8.ofNat_toNat,
          ← ih (by simpa using least)]

theorem readFrom_spec {bytes : Bytes} {acc i v n : Nat} (h : readFrom acc i bytes = some (v, n)) :
    ∃ w k, v = acc + w * 2 ^ (7 * i) ∧ n = i + k ∧ k ≤ bytes.length ∧ Spells w (bytes.take k) := by
  induction bytes generalizing acc i with
  | nil => simp [readFrom] at h
  | cons b rest ih =>
      simp only [readFrom] at h
      split at h
      · cases h
      · split at h
        · rename_i last
          split at h
          · cases h
          · cases h
            refine ⟨b.toNat, 1, by rw [Nat.mod_eq_of_lt last], rfl, by simp, ?_⟩
            simpa using Spells.last last
        · rename_i more
          obtain ⟨w, k, value, count, bound, spelled⟩ := ih h
          refine ⟨b.toNat % 128 + 128 * w, k + 1, ?_, by omega, by simpa using bound, ?_⟩
          · have shift : 2 ^ (7 * (i + 1)) = 128 * 2 ^ (7 * i) := by
              rw [show 7 * (i + 1) = 7 + 7 * i by omega, Nat.pow_add]
            rw [value, shift, Nat.add_mul, Nat.add_assoc, ← Nat.mul_assoc w, Nat.mul_comm w 128]
          · rw [List.take_succ_cons]
            exact .more (by omega) spelled

/-- What `read` consumes spells the value it gives. -/
theorem read_spec {bytes : Bytes} {v n : Nat} (h : read bytes = some (v, n)) :
    n ≤ bytes.length ∧ Spells v (bytes.take n) := by
  obtain ⟨w, k, value, count, bound, spelled⟩ := readFrom_spec h
  simp only [Nat.mul_zero, Nat.pow_zero, Nat.mul_one, Nat.zero_add] at value count
  subst value count
  exact ⟨bound, spelled⟩

/-- A value that is read fits 64 bits. -/
theorem readFrom_lt {bytes : Bytes} {acc i v n : Nat} (le : i ≤ 9)
    (h : readFrom acc i bytes = some (v, n)) : ∃ w, v = acc + w * 2 ^ (7 * i) ∧
      w < 2 ^ (64 - 7 * i) := by
  induction bytes generalizing acc i with
  | nil => simp [readFrom] at h
  | cons b rest ih =>
      simp only [readFrom] at h
      rw [if_neg (by omega)] at h
      split at h
      · rename_i last
        split at h
        · cases h
        · rename_i short
          cases h
          refine ⟨b.toNat, by rw [Nat.mod_eq_of_lt last], ?_⟩
          by_cases nine : i = 9
          · subst nine
            omega
          · have wide : 2 ^ 7 ≤ 2 ^ (64 - 7 * i) := Nat.pow_le_pow_right (by omega) (by omega)
            omega
      · by_cases nine : i = 9
        · subst nine
          cases rest with
          | nil => simp [readFrom] at h
          | cons c rest => simp [readFrom] at h
        · obtain ⟨w, value, small⟩ := ih (by omega) h
          have shift : 2 ^ (64 - 7 * i) = 128 * 2 ^ (64 - 7 * (i + 1)) := by
            rw [show 64 - 7 * i = 7 + (64 - 7 * (i + 1)) by omega, Nat.pow_add]
          have step : 2 ^ (7 * (i + 1)) = 128 * 2 ^ (7 * i) := by
            rw [show 7 * (i + 1) = 7 + 7 * i by omega, Nat.pow_add]
          refine ⟨b.toNat % 128 + 128 * w, ?_, by omega⟩
          rw [value, step, Nat.add_mul, Nat.add_assoc, ← Nat.mul_assoc w, Nat.mul_comm w 128]

theorem read_lt {bytes : Bytes} {v n : Nat} (h : read bytes = some (v, n)) : v < 2 ^ 64 := by
  obtain ⟨w, value, small⟩ := readFrom_lt (Nat.zero_le 9) h
  simpa [value] using small

end Varint

namespace Concise

/-! ## Valid views -/

/-- Whether the term may be a subject or a graph label. -/
def TermView.isNode : TermView → Bool
  | .iri _ | .blankNode _ => true
  | _ => false

def TermView.isIri : TermView → Bool
  | .iri _ => true
  | _ => false

/-- Levels of triple terms. -/
def TermView.depth : TermView → Nat
  | .tripleTerm s p o => 1 + max s.depth (max p.depth o.depth)
  | _ => 0

/-- Every leaf passes the validation of its kind and every component stands where its kind
may. -/
def TermView.Valid : TermView → Prop
  | .iri i => Iri.validateIri i = .ok ()
  | .blankNode label => validateBlankLabel label = .ok ()
  | .simple _ => True
  | .lang _ tag _ => validateLangTagNormalized tag = .ok ()
  | .datatyped _ dt => Iri.validateIri dt = .ok () ∧
      ¬ (dt = Vocab.xsdString ∨ dt = Vocab.rdfLangString ∨ dt = Vocab.rdfDirLangString)
  | .tripleTerm s p o => (s.isNode = true ∧ p.isIri = true) ∧ s.Valid ∧ p.Valid ∧ o.Valid

/-- The encoded components are short enough for the varints. -/
def TermView.Sized : TermView → Prop
  | .tripleTerm s p o =>
      ((reencode s).length < 2 ^ 64 ∧ (reencode p).length < 2 ^ 64 ∧ (reencode o).length < 2 ^ 64) ∧
        s.Sized ∧ p.Sized ∧ o.Sized
  | _ => True

/-! ## Literals -/

theorem splitQuote_spec {missing : String} {rest head lex : Bytes}
    (h : splitQuote missing rest = .ok (head, lex)) : rest = head ++ 0x22 :: lex := by
  unfold splitQuote at h
  cases found : rest.idxOf? 0x22 with
  | none =>
      rw [found] at h
      cases h
  | some quote =>
      rw [found] at h
      cases h
      obtain ⟨lt, mark, -⟩ := List.findIdx?_eq_some_iff_getElem.mp found
      rw [← beq_iff_eq.mp mark, List.getElem_cons_drop, List.take_append_drop]

theorem rfindDashes_spec {head : Bytes} {i : Nat} (h : rfindDashes head = some i) :
    head = head.take i ++ 0x2D :: 0x2D :: head.drop (i + 2) := by
  have dashes := List.find?_some h
  simp only [Bool.and_eq_true, beq_iff_eq] at dashes
  obtain ⟨lt, first⟩ := List.getElem?_eq_some_iff.mp dashes.1
  obtain ⟨lt', second⟩ := List.getElem?_eq_some_iff.mp dashes.2
  calc head = head.take i ++ head.drop i := (List.take_append_drop i head).symm
    _ = head.take i ++ head[i] :: head[i + 1] :: head.drop (i + 2) := by
        rw [List.getElem_cons_drop, List.getElem_cons_drop]
    _ = head.take i ++ 0x2D :: 0x2D :: head.drop (i + 2) := by rw [first, second]

/-- What the tag and the direction are spelled as. -/
def dirBytes : Option Dir → Bytes
  | none => []
  | some d => strBytes (dirSuffix d)

theorem splitDirection_spec {head tag : Bytes} {dir : Option Dir}
    (h : splitDirection head = .ok (tag, dir)) : head = tag ++ dirBytes dir := by
  unfold splitDirection at h
  cases found : rfindDashes head with
  | none =>
      rw [found] at h
      cases h
      simp [dirBytes]
  | some i =>
      have split := rfindDashes_spec found
      rw [found] at h
      simp only at h
      split at h
      · rename_i ltr
        cases h
        rw [ltr] at split
        exact split
      · split at h
        · rename_i rtl
          cases h
          rw [rtl] at split
          exact split
        · cases h

theorem decodeLang_spec {rest : Bytes} {t : TermRef} (h : decodeLang rest = .ok t) :
    ∃ lex tag dir, t = .lang lex tag dir ∧ validateLangTagNormalized tag = .ok () ∧
      encodeLang lex tag dir = 0x40 :: rest := by
  unfold decodeLang at h
  cases quoted : splitQuote "language literal missing '\"'" rest with
  | error e =>
      rw [quoted] at h
      cases h
  | ok parts =>
      obtain ⟨head, lexBytes⟩ := parts
      rw [quoted] at h
      simp only [bind, Except.bind] at h
      split at h
      · cases h
      split at h
      · cases h
      rename_i dirParts directed
      split at h
      · cases h
      rename_i tag tagged
      split at h
      · cases h
      rename_i normalized
      split at h
      · cases h
      rename_i lex lexed
      cases h
      refine ⟨lex, tag, dirParts.2, rfl, normalized, ?_⟩
      have spelled : head = dirParts.1 ++ dirBytes dirParts.2 := splitDirection_spec directed
      rw [splitQuote_spec quoted, spelled, ← strBytes_of_utf8 tagged, ← strBytes_of_utf8 lexed]
      cases dirParts.2 <;> simp [encodeLang, dirBytes]

theorem decodeDatatype_spec {rest : Bytes} {t : TermRef} (h : decodeDatatype rest = .ok t) :
    ∃ lex dt, t = .datatyped lex dt ∧ (TermView.datatyped lex dt).Valid ∧
      encodeDatatype lex dt = 0x5E :: rest := by
  unfold decodeDatatype at h
  split at h
  · cases h
  · rename_i mark tail
    split at h
    · cases h
    · rename_i marked
      have marked : mark = 0x3E := not_not.mp marked
      cases quoted : splitQuote "datatyped literal missing '\"'" tail with
      | error e =>
          rw [quoted] at h
          cases h
      | ok parts =>
          obtain ⟨dtBytes, lexBytes⟩ := parts
          rw [quoted] at h
          simp only [bind, Except.bind] at h
          split at h
          · cases h
          rename_i dt dted
          split at h
          · cases h
          rename_i validated
          split at h
          · cases h
          rename_i ordinary
          split at h
          · cases h
          rename_i lex lexed
          cases h
          refine ⟨lex, dt, rfl, ⟨validated, ordinary⟩, ?_⟩
          rw [splitQuote_spec quoted, marked, ← strBytes_of_utf8 dted, ← strBytes_of_utf8 lexed]
          simp [encodeDatatype]

/-! ## Components -/

/-- The length bytes of the component that opens a payload spell its length, and the
component and the rest follow them. -/
theorem splitPart_spec {payload part rest : Bytes} (h : splitPart payload = some (part, rest)) :
    ∃ n, Varint.read payload = some (part.length, n) ∧ n ≤ payload.length ∧
      payload = payload.take n ++ (part ++ rest) ∧
      Varint.Spells part.length (payload.take n) := by
  unfold splitPart at h
  split at h
  · cases h
  · rename_i len n sized
    split at h
    · cases h
    · rename_i fits
      cases h
      obtain ⟨bound, spelled⟩ := Varint.read_spec sized
      have length : ((payload.drop n).take len).length = len := by
        rw [List.length_take]
        omega
      rw [length]
      refine ⟨n, sized, bound, ?_, spelled⟩
      rw [List.take_append_drop, List.take_append_drop]

theorem decodePart_ok {dec : Bytes → Except TermError TermRef} {pos : Nat} {payload rest : Bytes}
    (h : decodePart dec pos payload = .ok rest) :
    ∃ part t, splitPart payload = some (part, rest) ∧ dec part = .ok t ∧
      checkPosition pos t = .ok () := by
  unfold decodePart at h
  split at h
  · cases h
  · rename_i part rest' opened
    simp only [bind, Except.bind] at h
    split at h
    · cases h
    · rename_i t decoded
      split at h
      · cases h
      · rename_i positioned
        cases h
        exact ⟨part, t, opened, decoded, positioned⟩

/-- What a component leaves does not depend on how much deeper its decoder may go. -/
theorem decodePart_mono {dec dec' : Bytes → Except TermError TermRef} {pos : Nat}
    {payload rest : Bytes} (deeper : ∀ bytes t, dec bytes = .ok t → dec' bytes = .ok t)
    (h : decodePart dec pos payload = .ok rest) : decodePart dec' pos payload = .ok rest := by
  obtain ⟨part, t, opened, decoded, -⟩ := decodePart_ok h
  unfold decodePart at h ⊢
  rw [opened] at h ⊢
  simp only [decoded, deeper part t decoded] at h ⊢
  exact h

/-- The three components of an accepted triple term. -/
structure Components (dec : Bytes → Except TermError TermRef) (payload s p o : Bytes) : Prop where
  parts : ∃ afterS afterP, splitPart payload = some (s, afterS) ∧
    splitPart afterS = some (p, afterP) ∧ splitPart afterP = some (o, [])
  subject : ∃ t, dec s = .ok t ∧ checkPosition 0 t = .ok ()
  predicate : ∃ t, dec p = .ok t ∧ checkPosition 1 t = .ok ()
  object : ∃ t, dec o = .ok t

/-- A triple term is accepted when its three components are and nothing follows them. -/
theorem decodeAt_triple {levels : Nat} {rest : Bytes} {t : TermRef} :
    decodeAt (levels + 1) (0x09 :: rest) = .ok t ↔
      t = .tripleTerm rest ∧ ∃ afterS afterP, decodePart (decodeAt levels) 0 rest = .ok afterS ∧
        decodePart (decodeAt levels) 1 afterS = .ok afterP ∧
        decodePart (decodeAt levels) 2 afterP = .ok [] := by
  have opened : decodeAt (levels + 1) (0x09 :: rest) = (do
      let afterS ← decodePart (decodeAt levels) 0 rest
      let afterP ← decodePart (decodeAt levels) 1 afterS
      let afterO ← decodePart (decodeAt levels) 2 afterP
      if afterO ≠ [] then throw (.invalidConcise "trailing bytes in triple term")
      return .tripleTerm rest) := rfl
  rw [opened]
  simp only [bind, Except.bind]
  constructor
  · intro h
    split at h
    · cases h
    rename_i afterS first
    split at h
    · cases h
    rename_i afterP second
    split at h
    · cases h
    rename_i afterO third
    split at h
    · cases h
    rename_i ended
    rw [not_not.mp ended] at third
    cases h
    exact ⟨rfl, afterS, afterP, first, second, third⟩
  · intro h
    obtain ⟨rfl, afterS, afterP, first, second, third⟩ := h
    simp only [first, second, third]
    rfl

/-- A decoder that may go deeper accepts what a shallower one does. -/
theorem decodeAt_succ {levels : Nat} {bytes : Bytes} {t : TermRef}
    (h : decodeAt levels bytes = .ok t) : decodeAt (levels + 1) bytes = .ok t := by
  induction levels generalizing bytes t with
  | zero => cases h
  | succ levels ih =>
      cases bytes with
      | nil => cases h
      | cons sig rest =>
          by_cases triple : sig = 0x09
          · subst triple
            obtain ⟨shape, afterS, afterP, first, second, third⟩ := decodeAt_triple.mp h
            have deeper : ∀ bytes t, decodeAt levels bytes = .ok t →
                decodeAt (levels + 1) bytes = .ok t := fun _ _ => ih
            exact decodeAt_triple.mpr ⟨shape, afterS, afterP, decodePart_mono deeper first,
              decodePart_mono deeper second, decodePart_mono deeper third⟩
          · have same : decodeAt (levels + 1 + 1) (sig :: rest) =
                decodeAt (levels + 1) (sig :: rest) := by
              unfold decodeAt
              rw [if_neg triple, if_neg triple]
            rw [same]
            exact h

theorem decodeAt_le {n m : Nat} {bytes : Bytes} {t : TermRef} (le : n ≤ m)
    (h : decodeAt n bytes = .ok t) : decodeAt m bytes = .ok t := by
  induction le with
  | refl => exact h
  | step _ ih => exact decodeAt_succ ih

/-- The view of a term that is not a triple term. -/
def leaf : TermRef → Option TermView
  | .iri iri => some (.iri iri)
  | .blankNode label => some (.blankNode label)
  | .simple lexical => some (.simple lexical)
  | .lang lexical tag dir => some (.lang lexical tag dir)
  | .datatyped lexical datatype => some (.datatyped lexical datatype)
  | .tripleTerm _ => none

theorem viewAt_leaf {t : TermRef} {v : TermView} (h : leaf t = some v) (levels : Nat) :
    viewAt (levels + 1) t = some v := by
  cases t with
  | tripleTerm payload => cases h
  | _ => simpa [viewAt, leaf] using h

/-- What an accepted term is: a valid leaf that the encoders spell alike, or a triple term
of accepted components. -/
theorem decodeAt_cases {levels : Nat} {bytes : Bytes} {t : TermRef}
    (h : decodeAt (levels + 1) bytes = .ok t) :
    ∃ sig rest, bytes = sig :: rest ∧
      ((sig ≠ 0x09 ∧ ∃ v, leaf t = some v ∧ v.Valid ∧ reencode v = bytes) ∨
        (sig = 0x09 ∧ t = .tripleTerm rest ∧ ∃ s p o, Components (decodeAt levels) rest s p o)) := by
  cases bytes with
  | nil => cases h
  | cons sig rest =>
      refine ⟨sig, rest, rfl, ?_⟩
      have whole := h
      unfold decodeAt at h
      by_cases iri : sig = 0x3E
      · subst iri
        simp only [↓reduceIte, bind, Except.bind] at h
        left
        refine ⟨by decide, ?_⟩
        split at h
        · cases h
        rename_i s read
        split at h
        · cases h
        rename_i validated
        cases h
        exact ⟨_, rfl, validated, by rw [← strBytes_of_utf8 read]; rfl⟩
      rw [if_neg iri] at h
      by_cases blank : sig = 0x5F
      · subst blank
        simp only [↓reduceIte, bind, Except.bind] at h
        left
        refine ⟨by decide, ?_⟩
        split at h
        · cases h
        rename_i s read
        split at h
        · cases h
        rename_i validated
        cases h
        exact ⟨_, rfl, validated, by rw [← strBytes_of_utf8 read]; rfl⟩
      rw [if_neg blank] at h
      by_cases simple : sig = 0x22
      · subst simple
        simp only [↓reduceIte, bind, Except.bind] at h
        left
        refine ⟨by decide, ?_⟩
        split at h
        · cases h
        rename_i s read
        cases h
        exact ⟨_, rfl, trivial, by rw [← strBytes_of_utf8 read]; rfl⟩
      rw [if_neg simple] at h
      by_cases lang : sig = 0x40
      · subst lang
        rw [if_pos rfl] at h
        obtain ⟨lex, tag, dir, rfl, valid, spelled⟩ := decodeLang_spec h
        exact .inl ⟨by decide, _, rfl, valid, spelled⟩
      rw [if_neg lang] at h
      by_cases datatype : sig = 0x5E
      · subst datatype
        rw [if_pos rfl] at h
        obtain ⟨lex, dt, rfl, valid, spelled⟩ := decodeDatatype_spec h
        exact .inl ⟨by decide, _, rfl, valid, spelled⟩
      rw [if_neg datatype] at h
      by_cases triple : sig = 0x09
      · subst triple
        obtain ⟨shape, afterS, afterP, first, second, third⟩ := decodeAt_triple.mp whole
        obtain ⟨s, ts, openS, decS⟩ := decodePart_ok first
        obtain ⟨p, tp, openP, decP⟩ := decodePart_ok second
        obtain ⟨o, tObj, openO, decO, -⟩ := decodePart_ok third
        exact .inr ⟨rfl, shape, s, p, o, ⟨afterS, afterP, openS, openP, openO⟩, ⟨ts, decS⟩,
          ⟨tp, decP⟩, ⟨tObj, decO⟩⟩
      rw [if_neg triple] at h
      cases h

theorem Components.component {dec : Bytes → Except TermError TermRef} {payload s p o : Bytes}
    (h : Components dec payload s p o) :
    component payload 0 = (decode s).toOption ∧ component payload 1 = (decode p).toOption ∧
      component payload 2 = (decode o).toOption := by
  obtain ⟨afterS, afterP, openS, openP, openO⟩ := h.parts
  simp only [Concise.component, openS, openP, openO, Option.bind_some, and_self]

theorem Components.fits {dec : Bytes → Except TermError TermRef} {payload s p o : Bytes}
    (h : Components dec payload s p o) :
    s.length < 2 ^ 64 ∧ p.length < 2 ^ 64 ∧ o.length < 2 ^ 64 := by
  obtain ⟨afterS, afterP, openS, openP, openO⟩ := h.parts
  obtain ⟨nS, readS, -⟩ := splitPart_spec openS
  obtain ⟨nP, readP, -⟩ := splitPart_spec openP
  obtain ⟨nO, readO, -⟩ := splitPart_spec openO
  exact ⟨Varint.read_lt readS, Varint.read_lt readP, Varint.read_lt readO⟩

/-! ## Lengths -/

/-- Whether the length of the component that opens a payload is spelled with the fewest
bytes. -/
def shortLength (payload : Bytes) : Bool :=
  match Varint.read payload with
  | none => false
  | some (len, n) => n == (Varint.write len).length

/-- Whether the next components of a payload have short lengths and pass the test. -/
def shortParts (short : Bytes → Bool) : Nat → Bytes → Bool
  | 0, _ => true
  | parts + 1, payload =>
      match splitPart payload with
      | none => false
      | some (part, rest) => shortLength payload && short part && shortParts short parts rest

/-- Whether every component length, at the given levels of nesting, is spelled with the
fewest bytes. -/
def shortLengthsAt : Nat → Bytes → Bool
  | 0, _ => true
  | _ + 1, [] => true
  | levels + 1, sig :: rest =>
      if sig = 0x09 then shortParts (shortLengthsAt levels) 3 rest else true

def shortLengths (bytes : Bytes) : Bool := shortLengthsAt (maxTripleTermDepth + 1) bytes

/-- The bytes that open a payload spell the length of its first component. -/
theorem splitPart_lengthBytes {payload part rest : Bytes}
    (h : splitPart payload = some (part, rest)) :
    ∃ lengthBytes, payload = lengthBytes ++ (part ++ rest) ∧
      Varint.Spells part.length lengthBytes ∧
      (shortLength payload = true ↔ lengthBytes.length = (Varint.write part.length).length) := by
  obtain ⟨n, sized, bound, split, spelled⟩ := splitPart_spec h
  refine ⟨payload.take n, split, spelled, ?_⟩
  unfold shortLength
  rw [sized, List.length_take, Nat.min_eq_left bound]
  exact beq_iff_eq

/-- How the encoding of a view relates to the bytes it was taken from: never longer, and
equal exactly when the bytes have short lengths. -/
structure Reencodes (levels : Nat) (bytes : Bytes) (v : TermView) : Prop where
  length_le : (reencode v).length ≤ bytes.length
  eq_of_short : shortLengthsAt levels bytes = true → reencode v = bytes
  short_of_length : (reencode v).length = bytes.length → shortLengthsAt levels bytes = true

theorem Reencodes.eq_iff {levels : Nat} {bytes : Bytes} {v : TermView}
    (h : Reencodes levels bytes v) :
    reencode v = bytes ↔ shortLengthsAt levels bytes = true :=
  ⟨fun same => h.short_of_length (congrArg List.length same), h.eq_of_short⟩

theorem Reencodes.leaf {levels : Nat} {sig : UInt8} {rest : Bytes} {v : TermView}
    (notTriple : sig ≠ 0x09) (same : reencode v = sig :: rest) :
    Reencodes (levels + 1) (sig :: rest) v := by
  have short : shortLengthsAt (levels + 1) (sig :: rest) = true := by
    unfold shortLengthsAt
    rw [if_neg notTriple]
  exact ⟨by rw [same], fun _ => same, fun _ => short⟩

theorem Reencodes.triple {levels : Nat} {payload s p o : Bytes} {vs vp vo : TermView}
    (parts : ∃ afterS afterP, splitPart payload = some (s, afterS) ∧
      splitPart afterS = some (p, afterP) ∧ splitPart afterP = some (o, []))
    (hs : Reencodes levels s vs) (hp : Reencodes levels p vp) (ho : Reencodes levels o vo) :
    Reencodes (levels + 1) (0x09 :: payload) (.tripleTerm vs vp vo) := by
  obtain ⟨afterS, afterP, openS, openP, openO⟩ := parts
  have test : shortLengthsAt (levels + 1) (0x09 :: payload) = true ↔
      (shortLength payload = true ∧ shortLengthsAt levels s = true) ∧
        (shortLength afterS = true ∧ shortLengthsAt levels p = true) ∧
        (shortLength afterP = true ∧ shortLengthsAt levels o = true) := by
    rw [show shortLengthsAt (levels + 1) (0x09 :: payload) =
      shortParts (shortLengthsAt levels) 3 payload from rfl]
    simp only [shortParts, openS, openP, openO, Bool.and_eq_true, and_true]
  obtain ⟨lenS, rfl, spellS, shortS⟩ := splitPart_lengthBytes openS
  obtain ⟨lenP, rfl, spellP, shortP⟩ := splitPart_lengthBytes openP
  obtain ⟨lenO, rfl, spellO, shortO⟩ := splitPart_lengthBytes openO
  have leS := Varint.length_write_mono hs.length_le
  have leP := Varint.length_write_mono hp.length_le
  have leO := Varint.length_write_mono ho.length_le
  have leastS := spellS.length_write_le
  have leastP := spellP.length_write_le
  have leastO := spellO.length_write_le
  have bytesS := hs.length_le
  have bytesP := hp.length_le
  have bytesO := ho.length_le
  refine ⟨?_, ?_, ?_⟩
  · simp only [reencode, encodeTripleTerm, List.length_cons, List.length_append, List.length_nil]
    omega
  · intro short
    obtain ⟨⟨s1, s2⟩, ⟨p1, p2⟩, ⟨o1, o2⟩⟩ := test.mp short
    rw [spellS.eq_write (shortS.mp s1), spellP.eq_write (shortP.mp p1),
      spellO.eq_write (shortO.mp o1)]
    simp only [reencode, encodeTripleTerm, hs.eq_of_short s2, hp.eq_of_short p2,
      ho.eq_of_short o2, List.append_assoc, List.append_nil]
  · intro same
    simp only [reencode, encodeTripleTerm, List.length_cons, List.length_append,
      List.length_nil] at same
    rw [test, shortS, shortP, shortO]
    have eqS : (reencode vs).length = s.length := by omega
    have eqP : (reencode vp).length = p.length := by omega
    have eqO : (reencode vo).length = o.length := by omega
    exact ⟨⟨by omega, hs.short_of_length eqS⟩, ⟨by omega, hp.short_of_length eqP⟩,
      ⟨by omega, ho.short_of_length eqO⟩⟩

theorem isNode_of_checkPosition {t : TermRef} {levels : Nat} {v : TermView}
    (h : checkPosition 0 t = .ok ()) (viewed : viewAt levels t = some v) : v.isNode = true := by
  cases levels with
  | zero => cases viewed
  | succ levels =>
      cases t with
      | iri iri =>
          cases viewed
          rfl
      | blankNode label =>
          cases viewed
          rfl
      | _ => cases h

theorem isIri_of_checkPosition {t : TermRef} {levels : Nat} {v : TermView}
    (h : checkPosition 1 t = .ok ()) (viewed : viewAt levels t = some v) : v.isIri = true := by
  cases levels with
  | zero => cases viewed
  | succ levels =>
      cases t with
      | iri iri =>
          cases viewed
          rfl
      | _ => cases h

theorem depth_leaf {t : TermRef} {v : TermView} (h : leaf t = some v) : v.depth = 0 := by
  cases t with
  | tripleTerm payload => cases h
  | _ =>
      cases h
      rfl

theorem sized_leaf {t : TermRef} {v : TermView} (h : leaf t = some v) : v.Sized := by
  cases t with
  | tripleTerm payload => cases h
  | _ =>
      cases h
      trivial

/-- By induction on the levels of nesting: an accepted term has a valid view, and its
encoding falls short of the bytes only where a length was spelled too long. -/
theorem viewAt_of_decodeAt {levels : Nat} (le : levels ≤ maxTripleTermDepth + 1) {bytes : Bytes}
    {t : TermRef} (h : decodeAt levels bytes = .ok t) :
    ∃ v, viewAt levels t = some v ∧ Reencodes levels bytes v ∧ v.Valid ∧ v.depth < levels ∧
      v.Sized := by
  induction levels generalizing bytes t with
  | zero => cases h
  | succ levels ih =>
      have le' : levels ≤ maxTripleTermDepth + 1 := by omega
      obtain ⟨sig, rest, rfl, shape⟩ := decodeAt_cases h
      rcases shape with ⟨notTriple, v, isLeaf, valid, same⟩ | ⟨rfl, rfl, s, p, o, comps⟩
      · exact ⟨v, viewAt_leaf isLeaf levels, .leaf notTriple same, valid,
          by rw [depth_leaf isLeaf]; omega, sized_leaf isLeaf⟩
      · obtain ⟨ts, decS, posS⟩ := comps.subject
        obtain ⟨tp, decP, posP⟩ := comps.predicate
        obtain ⟨tObj, decO⟩ := comps.object
        obtain ⟨vs, viewS, hs, validS, depthS, sizedS⟩ := ih le' decS
        obtain ⟨vp, viewP, hp, validP, depthP, sizedP⟩ := ih le' decP
        obtain ⟨vo, viewO, ho, validO, depthO, sizedO⟩ := ih le' decO
        obtain ⟨fitsS, fitsP, fitsO⟩ := comps.fits
        have leS := hs.length_le
        have leP := hp.length_le
        have leO := ho.length_le
        refine ⟨.tripleTerm vs vp vo, ?_, .triple comps.parts hs hp ho,
          ⟨⟨isNode_of_checkPosition posS viewS, isIri_of_checkPosition posP viewP⟩, validS, validP,
            validO⟩, by simp only [TermView.depth]; omega,
          ⟨⟨by omega, by omega, by omega⟩, sizedS, sizedP, sizedO⟩⟩
        obtain ⟨compS, compP, compO⟩ := comps.component
        have atS : (decode s).toOption = some ts := by rw [decode, decodeAt_le le' decS]; rfl
        have atP : (decode p).toOption = some tp := by rw [decode, decodeAt_le le' decP]; rfl
        have atO : (decode o).toOption = some tObj := by rw [decode, decodeAt_le le' decO]; rfl
        simp [viewAt, compS, compP, compO, atS, atP, atO, viewS, viewP, viewO]

/-- An accepted term has a view, which encodes to the same bytes exactly when these have
short lengths. -/
theorem view_of_decode {bytes : Bytes} {t : TermRef} (h : decode bytes = .ok t) :
    ∃ v, view t = some v ∧ (reencode v = bytes ↔ shortLengths bytes = true) := by
  obtain ⟨v, viewed, spelled, -⟩ := viewAt_of_decodeAt (Nat.le_refl _) h
  exact ⟨v, viewed, spelled.eq_iff⟩

/-- An accepted term has a valid view, nested no deeper than the limit. -/
theorem valid_of_decode {bytes : Bytes} {t : TermRef} (h : decode bytes = .ok t) :
    ∃ v, view t = some v ∧ v.Valid ∧ v.depth ≤ maxTripleTermDepth := by
  obtain ⟨v, viewed, -, valid, depth, -⟩ := viewAt_of_decodeAt (Nat.le_refl _) h
  exact ⟨v, viewed, valid, Nat.le_of_lt_succ depth⟩

/-! ## Canonicity -/

/-- Two accepted terms: equal views only for equal bytes, each the encoding of its view,
so that byte order tells apart exactly the terms that differ. -/
structure CanonicalAt (a b : Bytes) (ta tb : TermRef) : Prop where
  eq_of_view : view ta = view tb → a = b
  left : (view ta).map reencode = some a
  right : (view tb).map reencode = some b
  order : view ta = view tb ↔ ¬ a < b ∧ ¬ b < a

/-- The encoding is canonical on a pair of byte strings. -/
def Canonical (a b : Bytes) : Prop :=
  ∀ ta tb, decode a = .ok ta → decode b = .ok tb → CanonicalAt a b ta tb

theorem bytes_eq_of_not_lt {a b : Bytes} (h : ¬ a < b) (h' : ¬ b < a) : a = b :=
  List.le_antisymm (List.not_lt.mp h') (List.not_lt.mp h)

/-- The encoding is canonical on two byte strings exactly when, if both are accepted, no
component of a triple term in either has a length spelled with more bytes than it needs. -/
theorem canonical_iff (a b : Bytes) :
    Canonical a b ↔ (∀ ta tb, decode a = .ok ta → decode b = .ok tb →
      shortLengths a = true ∧ shortLengths b = true) := by
  constructor
  · intro canonical ta tb okA okB
    have at_ := canonical ta tb okA okB
    obtain ⟨va, viewA, spellA⟩ := view_of_decode okA
    obtain ⟨vb, viewB, spellB⟩ := view_of_decode okB
    have left := at_.left
    have right := at_.right
    rw [viewA, Option.map_some, Option.some.injEq] at left
    rw [viewB, Option.map_some, Option.some.injEq] at right
    exact ⟨spellA.mp left, spellB.mp right⟩
  · intro short ta tb okA okB
    obtain ⟨va, viewA, spellA⟩ := view_of_decode okA
    obtain ⟨vb, viewB, spellB⟩ := view_of_decode okB
    obtain ⟨shortA, shortB⟩ := short ta tb okA okB
    have left := spellA.mpr shortA
    have right := spellB.mpr shortB
    have ident : view ta = view tb → a = b := by
      intro same
      rw [viewA, viewB, Option.some.injEq] at same
      rw [← left, ← right, same]
    refine ⟨ident, by rw [viewA, Option.map_some, left], by rw [viewB, Option.map_some, right], ?_⟩
    constructor
    · intro same
      rw [ident same]
      exact ⟨List.lt_irrefl b, List.lt_irrefl b⟩
    · intro apart
      rw [bytes_eq_of_not_lt apart.1 apart.2] at okA
      rw [Except.ok.inj (okA.symm.trans okB)]

/-- A triple term whose subject length 2 is spelled with two bytes is accepted with the
same view as the one with a single byte. -/
theorem not_canonical_longLength :
    ¬ Canonical [9, 0x82, 0, 0x5F, 0x73, 3, 0x3E, 0x61, 0x3A, 1, 0x22]
      [9, 2, 0x5F, 0x73, 3, 0x3E, 0x61, 0x3A, 1, 0x22] := by
  intro canonical
  have accepted : decode [9, 0x82, 0, 0x5F, 0x73, 3, 0x3E, 0x61, 0x3A, 1, 0x22] =
      .ok (.tripleTerm [0x82, 0, 0x5F, 0x73, 3, 0x3E, 0x61, 0x3A, 1, 0x22]) := by decide +kernel
  have accepted' : decode [9, 2, 0x5F, 0x73, 3, 0x3E, 0x61, 0x3A, 1, 0x22] =
      .ok (.tripleTerm [2, 0x5F, 0x73, 3, 0x3E, 0x61, 0x3A, 1, 0x22]) := by decide +kernel
  have same := (canonical _ _ accepted accepted').eq_of_view (by decide +kernel)
  exact absurd same (by decide)

end Concise

end Graphy
