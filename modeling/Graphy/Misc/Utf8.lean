import Mathlib.Algebra.Ring.Nat
import Mathlib.Data.List.Basic

/-!
# UTF-8 text as bytes

The bytes of a list of characters: decoding gives the characters back, and a byte below
128 stands for the character of that number only.
-/

namespace Graphy.Utf8

/-- The bytes of some characters. -/
def encode (cs : List Char) : List UInt8 := cs.flatMap String.utf8EncodeChar

@[simp] theorem encode_nil : encode [] = [] := rfl

@[simp] theorem encode_cons (c : Char) (cs : List Char) :
    encode (c :: cs) = String.utf8EncodeChar c ++ encode cs := List.flatMap_cons

@[simp] theorem encode_append (cs ds : List Char) : encode (cs ++ ds) = encode cs ++ encode ds :=
  List.flatMap_append

theorem toByteArray_encode (cs : List Char) : (encode cs).toByteArray = cs.utf8Encode := rfl

theorem encode_ofList (cs : List Char) :
    (String.ofList cs).toByteArray.data.toList = encode cs := by
  rw [String.toByteArray_ofList, ← toByteArray_encode, List.toList_data_toByteArray]

/-- The bytes of a string are those of its characters. -/
theorem bytes_eq_encode (s : String) : s.toByteArray.data.toList = encode s.toList := by
  rw [← encode_ofList, String.ofList_toList]

theorem fromUTF8?_encode (cs : List Char) :
    String.fromUTF8? ⟨(encode cs).toArray⟩ = some (String.ofList cs) := by
  have bytes : (⟨(encode cs).toArray⟩ : ByteArray) = cs.utf8Encode := by
    rw [← toByteArray_encode]
    apply ByteArray.ext
    rw [List.data_toByteArray]
  rw [bytes]
  unfold String.fromUTF8?
  rw [dif_pos ByteArray.isValidUTF8_utf8Encode]
  rfl

theorem encode_inj {cs ds : List Char} (h : encode cs = encode ds) : cs = ds := by
  have same := fromUTF8?_encode cs
  rw [h, fromUTF8?_encode ds, Option.some.injEq] at same
  exact (String.ofList_injective same).symm

theorem length_encode (cs : List Char) : (encode cs).length = (cs.map Char.utf8Size).sum := by
  induction cs with
  | nil => rfl
  | cons c cs ih => simp [ih]

theorem length_encode_le (cs : List Char) : (encode cs).length ≤ 4 * cs.length := by
  induction cs with
  | nil => exact Nat.le_refl 0
  | cons c cs ih =>
      have size := Char.utf8Size_le_four c
      rw [encode_cons, List.length_append, String.length_utf8EncodeChar, List.length_cons]
      omega

/-! ## ASCII -/

theorem encodeChar_ascii {c : Char} (h : c.toNat < 128) :
    String.utf8EncodeChar c = [UInt8.ofNat c.toNat] := by
  have small : c.val.toNat ≤ 0x7f := Nat.le_of_lt_succ h
  unfold String.utf8EncodeChar
  rw [if_pos small]
  rfl

/-- How the bytes of a character above ASCII begin, with the number of its bytes. -/
inductive Lead : Nat → Nat → Prop where
  | two {b : Nat} (h : 0xC0 ≤ b ∧ b ≤ 0xDF) : Lead 2 b
  | three {b : Nat} (h : 0xE0 ≤ b ∧ b ≤ 0xEF) : Lead 3 b
  | four {b : Nat} (h : 0xF0 ≤ b ∧ b ≤ 0xF7) : Lead 4 b

/-- A character above ASCII is a lead byte and bytes from 128. -/
theorem encodeChar_high {c : Char} (h : 128 ≤ c.toNat) :
    ∃ b rest, String.utf8EncodeChar c = b :: rest ∧ Lead c.utf8Size b.toNat ∧
      ∀ d ∈ rest, 128 ≤ d.toNat := by
  have large : ¬ c.val.toNat ≤ 0x7f := by
    have : 128 ≤ c.val.toNat := h
    omega
  rw [← String.length_utf8EncodeChar c]
  unfold String.utf8EncodeChar
  rw [if_neg large]
  split
  · refine ⟨_, _, rfl, .two ?_, ?_⟩
    · rw [UInt8.toNat_ofNat']
      omega
    · intro d mem
      simp only [List.mem_singleton] at mem
      rw [mem, UInt8.toNat_ofNat']
      omega
  · split
    · refine ⟨_, _, rfl, .three ?_, ?_⟩
      · rw [UInt8.toNat_ofNat']
        omega
      · intro d mem
        simp only [List.mem_cons, List.not_mem_nil, or_false] at mem
        rcases mem with rfl | rfl
        all_goals rw [UInt8.toNat_ofNat']
        all_goals omega
    · refine ⟨_, _, rfl, .four ?_, ?_⟩
      · rw [UInt8.toNat_ofNat']
        omega
      · intro d mem
        simp only [List.mem_cons, List.not_mem_nil, or_false] at mem
        rcases mem with rfl | rfl | rfl
        all_goals rw [UInt8.toNat_ofNat']
        all_goals omega

/-- The bytes of a character above ASCII are above ASCII. -/
theorem high_of_mem {c : Char} (h : 128 ≤ c.toNat) {b : UInt8}
    (mem : b ∈ String.utf8EncodeChar c) : 128 ≤ b.toNat := by
  obtain ⟨lead, rest, same, leads, high⟩ := encodeChar_high h
  rw [same, List.mem_cons] at mem
  rcases mem with rfl | mem
  · generalize c.utf8Size = size at leads
    cases leads <;> omega
  · exact high b mem

/-- A byte below 128 stands for the character of that number. -/
theorem mem_encode {cs : List Char} {b : UInt8} (low : b.toNat < 128) :
    b ∈ encode cs ↔ ∃ c ∈ cs, c.toNat = b.toNat := by
  simp only [encode, List.mem_flatMap]
  constructor
  · rintro ⟨c, mem, byte⟩
    refine ⟨c, mem, ?_⟩
    by_cases ascii : c.toNat < 128
    · rw [encodeChar_ascii ascii, List.mem_singleton] at byte
      rw [byte, UInt8.toNat_ofNat', Nat.mod_eq_of_lt (by omega)]
    · have := high_of_mem (Nat.le_of_not_lt ascii) byte
      omega
  · rintro ⟨c, mem, same⟩
    refine ⟨c, mem, ?_⟩
    rw [encodeChar_ascii (by omega), same, UInt8.ofNat_toNat]
    exact List.mem_singleton.mpr rfl

end Graphy.Utf8
