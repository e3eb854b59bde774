import Graphy.Core.Concise
import Graphy.Misc.Utf8

/-!
# Text

The bytes of strings, and what the validators promise about the characters of IRIs and
language tags.
-/

namespace Graphy

/-! ## Bytes -/

theorem strBytes_eq_encode (s : String) : strBytes s = Utf8.encode s.toList :=
  Utf8.bytes_eq_encode s

theorem utf8_encode (cs : List Char) : utf8 (Utf8.encode cs) = .ok (String.ofList cs) := by
  unfold utf8
  rw [Utf8.fromUTF8?_encode]

@[simp] theorem utf8_strBytes (s : String) : utf8 (strBytes s) = .ok s := by
  rw [strBytes_eq_encode, utf8_encode, String.ofList_toList]

/-- A byte of a string is above ASCII or the number of one of its characters. -/
theorem byte_of_mem {s : String} {b : UInt8} (mem : b ∈ strBytes s) :
    128 ≤ b.toNat ∨ ∃ c ∈ s.toList, c.toNat = b.toNat := by
  rw [strBytes_eq_encode] at mem
  by_cases low : b.toNat < 128
  · exact .inr ((Utf8.mem_encode low).mp mem)
  · exact .inl (Nat.le_of_not_lt low)

theorem idxOf?_append_of_not_mem {bytes rest : Bytes} {b : UInt8} (h : b ∉ bytes) :
    (bytes ++ b :: rest).idxOf? b = some bytes.length := by
  rw [List.idxOf?_eq_some_iff]
  refine ⟨by simp, by simp, ?_⟩
  intro j lt same
  rw [List.getElem_append_left lt] at same
  exact h (same ▸ List.getElem_mem lt)

theorem strBytes_append (a b : String) : strBytes (a ++ b) = strBytes a ++ strBytes b := by
  rw [strBytes_eq_encode, strBytes_eq_encode, strBytes_eq_encode, String.toList_append,
    Utf8.encode_append]

/-! ## IRIs -/

theorem isForbidden_iff (c : Char) :
    Iri.isForbidden c = true ↔ c.toNat ≤ 0x20 ∨
      c.toNat ∈ [0x3C, 0x3E, 0x22, 0x7B, 0x7D, 0x7C, 0x5C, 0x5E, 0x60, 0x7F] := by
  simp only [Iri.isForbidden, Bool.or_eq_true, decide_eq_true_eq, List.contains_eq_mem,
    List.mem_cons, List.not_mem_nil, or_false, ← Char.toNat_inj, Char.le_def]
  exact Iff.rfl

/-- Nothing in the text may not stand raw in a reference. -/
def Clean (s : String) : Prop := ∀ c ∈ s.toList, Iri.isForbidden c = false

theorem clean_of_findForbidden {pos : Nat} {cs : List Char}
    (h : Iri.findForbidden pos cs = none) : ∀ c ∈ cs, Iri.isForbidden c = false := by
  induction cs generalizing pos with
  | nil => simp
  | cons c cs ih =>
      unfold Iri.findForbidden at h
      split at h
      · cases h
      · rename_i allowed
        intro d mem
        rcases List.mem_cons.mp mem with rfl | mem
        · simpa using allowed
        · exact ih h d mem

theorem clean_of_validateIri {s : String} (h : Iri.validateIri s = .ok ()) : Clean s := by
  unfold Iri.validateIri at h
  cases parsed : Iri.parseReference s with
  | error e =>
      rw [parsed] at h
      cases h
  | ok parts =>
      unfold Iri.parseReference at parsed
      simp only [bind, Except.bind] at parsed
      split at parsed
      · cases parsed
      · rename_i unseen
        cases found : Iri.findForbidden 0 s.toList with
        | none => exact clean_of_findForbidden found
        | some pos => exact (unseen pos found).elim

/-! ## Language tags -/

theorem splitAll_ne_nil (c : Char) (s : List Char) : splitAll c s ≠ [] := by
  cases s with
  | nil => exact List.cons_ne_nil _ _
  | cons d s =>
      unfold splitAll
      split
      · exact List.cons_ne_nil _ _
      · split <;> exact List.cons_ne_nil _ _

theorem splitAll_eq {c : Char} {s p : List Char} {parts : List (List Char)}
    (h : splitAll c s = p :: parts) : s = p ++ parts.flatMap (c :: ·) := by
  induction s generalizing p parts with
  | nil =>
      cases h
      rfl
  | cons d s ih =>
      unfold splitAll at h
      split at h
      · rename_i sep
        cases h
        cases rest : splitAll c s with
        | nil => exact absurd rest (splitAll_ne_nil c s)
        | cons q qs =>
            rw [List.nil_append, List.flatMap_cons, List.cons_append, ← ih rest, sep]
      · split at h
        · rename_i none
          exact absurd none (splitAll_ne_nil c s)
        · rename_i first rest found
          cases h
          rw [List.cons_append, ← ih found]

@[simp] theorem splitAll_of_not_mem {c : Char} {s : List Char} (h : c ∉ s) : splitAll c s = [s] := by
  induction s with
  | nil => rfl
  | cons d s ih =>
      rw [List.mem_cons, not_or] at h
      rw [splitAll, if_neg (Ne.symm h.1), ih h.2]

theorem splitAll_append {c : Char} {s : List Char} (h : c ∉ s) (t : List Char) :
    splitAll c (s ++ c :: t) = s :: splitAll c t := by
  induction s with
  | nil => rw [List.nil_append, splitAll, if_pos rfl]
  | cons d s ih =>
      rw [List.mem_cons, not_or] at h
      rw [List.cons_append, splitAll, if_neg (Ne.symm h.1), ih h.2]

/-- One part more than there are occurrences. -/
theorem length_splitAll (c : Char) (s : List Char) : (splitAll c s).length = s.count c + 1 := by
  induction s with
  | nil => rfl
  | cons d s ih =>
      rw [splitAll]
      split
      · rename_i same
        rw [same, List.length_cons, ih, List.count_cons_self]
      · rename_i other
        rw [List.count_cons_of_ne other, ← ih]
        cases parts : splitAll c s with
        | nil => exact absurd parts (splitAll_ne_nil c s)
        | cons first rest => rfl

/-- What the bytes of ASCII text satisfy. -/
theorem ascii_byte {cs : List Char} {p : Char → Bool} (ascii : ∀ c, p c = true → c.toNat < 128)
    (all : cs.all p = true) {b : UInt8} (mem : b ∈ Utf8.encode cs) :
    ∃ c, p c = true ∧ c.toNat = b.toNat := by
  rw [List.all_eq_true] at all
  simp only [Utf8.encode, List.mem_flatMap] at mem
  obtain ⟨c, inText, byte⟩ := mem
  have small := ascii c (all c inText)
  rw [Utf8.encodeChar_ascii small, List.mem_singleton] at byte
  refine ⟨c, all c inText, ?_⟩
  rw [byte, UInt8.toNat_ofNat', Nat.mod_eq_of_lt (by omega)]

theorem isAsciiAlphabetic_iff (c : Char) : isAsciiAlphabetic c = true ↔
    (0x41 ≤ c.toNat ∧ c.toNat ≤ 0x5A) ∨ (0x61 ≤ c.toNat ∧ c.toNat ≤ 0x7A) := by
  simp [isAsciiAlphabetic, inRanges]

theorem isAsciiDigit_iff (c : Char) :
    isAsciiDigit c = true ↔ 0x30 ≤ c.toNat ∧ c.toNat ≤ 0x39 := by
  simp [isAsciiDigit, inRanges]

theorem isAsciiAlphanumeric_iff (c : Char) : isAsciiAlphanumeric c = true ↔
    ((0x41 ≤ c.toNat ∧ c.toNat ≤ 0x5A) ∨ (0x61 ≤ c.toNat ∧ c.toNat ≤ 0x7A)) ∨
      (0x30 ≤ c.toNat ∧ c.toNat ≤ 0x39) := by
  rw [isAsciiAlphanumeric, Bool.or_eq_true, isAsciiAlphabetic_iff, isAsciiDigit_iff]

/-- A part of a tag. -/
structure Subtag (ok : Char → Bool) (part : List Char) : Prop where
  some : part ≠ []
  short : utf8Len part ≤ 8
  chars : part.all ok = true

/-- A tag that passes validation: its parts, in lower case. -/
theorem langTag_parts {tag : String} (h : Concise.validateLangTagNormalized tag = .ok ()) :
    ∃ (primary : List Char) (subs : List (List Char)),
      tag.toList = primary ++ subs.flatMap ('-' :: ·) ∧
      Subtag isAsciiAlphabetic primary ∧ (∀ sub ∈ subs, Subtag isAsciiAlphanumeric sub) ∧
      tag.toList.any isAsciiUppercase = false := by
  unfold Concise.validateLangTagNormalized at h
  cases shape : Concise.validateLangTagShape tag with
  | error e =>
      rw [shape] at h
      cases h
  | ok u =>
      rw [shape] at h
      have lower : tag.toList.any isAsciiUppercase = false := by
        cases upper : tag.toList.any isAsciiUppercase
        · rfl
        · simp [bind, Except.bind, upper, throw, throwThe, MonadExceptOf.throw] at h
      unfold Concise.validateLangTagShape at shape
      split at shape
      · cases shape
      · rename_i primary subs parts
        split at shape
        · cases shape
        · rename_i primaryOk
          split at shape
          · cases shape
          · rename_i subsOk
            refine ⟨primary, subs, splitAll_eq parts, ?_, ?_, lower⟩
            · simp only [Bool.or_eq_true, Bool.not_eq_true', decide_eq_true_eq, not_or,
                List.isEmpty_iff, Nat.not_lt, Bool.not_eq_false] at primaryOk
              exact ⟨primaryOk.1.1, primaryOk.1.2, primaryOk.2⟩
            · intro sub mem
              have subOk := fun bad => subsOk (List.any_eq_true.mpr ⟨sub, mem, bad⟩)
              simp only [Bool.or_eq_true, Bool.not_eq_true', decide_eq_true_eq, not_or,
                List.isEmpty_iff, Nat.not_lt, Bool.not_eq_false, imp_false] at subOk
              exact ⟨subOk.1.1, subOk.1.2, subOk.2⟩

end Graphy
