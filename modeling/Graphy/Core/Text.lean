import Mathlib.Algebra.Ring.Nat
import Mathlib.Data.List.Basic
import Mathlib.Data.List.TakeDrop
import Mathlib.Data.List.TakeWhile

/-!
# Character classes

Unicode character classes shared by the text grammars.
-/

namespace Graphy

/-- Whether the character lies in one of the inclusive ranges. -/
def inRanges (ranges : List (Nat × Nat)) (c : Char) : Bool :=
  ranges.any fun r => decide (r.1 ≤ c.toNat ∧ c.toNat ≤ r.2)

def isAsciiAlphabetic (c : Char) : Bool := inRanges [(0x41, 0x5A), (0x61, 0x7A)] c

def isAsciiDigit (c : Char) : Bool := inRanges [(0x30, 0x39)] c

def isAsciiAlphanumeric (c : Char) : Bool := isAsciiAlphabetic c || isAsciiDigit c

def isAsciiUppercase (c : Char) : Bool := inRanges [(0x41, 0x5A)] c

def isAsciiHexdigit (c : Char) : Bool := isAsciiDigit c || inRanges [(0x41, 0x46), (0x61, 0x66)] c

def isPnCharsBase (c : Char) : Bool :=
  inRanges [(0x41, 0x5A), (0x61, 0x7A), (0xC0, 0xD6), (0xD8, 0xF6), (0xF8, 0x2FF), (0x370, 0x37D),
    (0x37F, 0x1FFF), (0x200C, 0x200D), (0x2070, 0x218F), (0x2C00, 0x2FEF), (0x3001, 0xD7FF),
    (0xF900, 0xFDCF), (0xFDF0, 0xFFFD), (0x10000, 0xEFFFF)] c

def isPnCharsU (c : Char) : Bool := c == '_' || isPnCharsBase c

def isPnChars (c : Char) : Bool :=
  inRanges [(0x2D, 0x2D), (0x30, 0x39), (0xB7, 0xB7), (0x300, 0x36F), (0x203F, 0x2040)] c ||
    isPnCharsU c

/-- What goes on a variable's name: the characters of names but the dash. -/
def isVarnameChar (c : Char) : Bool :=
  inRanges [(0x30, 0x39), (0xB7, 0xB7), (0x300, 0x36F), (0x203F, 0x2040)] c || isPnCharsU c

/-- Split at the first occurrence of a character. -/
def splitOnce (c : Char) (s : List Char) : Option (List Char × List Char) :=
  match s.span fun d => d != c with
  | (_, []) => none
  | (a, _ :: b) => some (a, b)

theorem splitOnce_append {c : Char} {a : List Char} (clear : c ∉ a) (b : List Char) :
    splitOnce c (a ++ c :: b) = some (a, b) := by
  have others : ∀ x ∈ a, (x != c) = true := fun x hx =>
    bne_iff_ne.mpr fun same => clear (same ▸ hx)
  rw [splitOnce, List.span_eq_takeWhile_dropWhile, List.takeWhile_append_of_pos others,
    List.dropWhile_append_of_pos others]
  simp

theorem splitOnce_of_not_mem {c : Char} {s : List Char} (clear : c ∉ s) : splitOnce c s = none := by
  have others : ∀ x ∈ s, (x != c) = true := fun x hx =>
    bne_iff_ne.mpr fun same => clear (same ▸ hx)
  rw [splitOnce, List.span_eq_takeWhile_dropWhile, List.dropWhile_eq_nil_iff.mpr others]

/-- The character is absent, or the parts are what stands before and after its first
occurrence. -/
theorem splitOnce_cases (c : Char) (s : List Char) :
    c ∉ s ∧ splitOnce c s = none ∨
      ∃ a b, s = a ++ c :: b ∧ c ∉ a ∧ splitOnce c s = some (a, b) := by
  by_cases inside : c ∈ s
  · obtain ⟨a, b, same, clear⟩ := List.eq_append_cons_of_mem inside
    exact .inr ⟨a, b, same, clear, same ▸ splitOnce_append clear b⟩
  · exact .inl ⟨inside, splitOnce_of_not_mem inside⟩

/-- Split at the last occurrence of a character. -/
def rsplitOnce (c : Char) (s : List Char) : Option (List Char × List Char) :=
  (splitOnce c s.reverse).map fun r => (r.2.reverse, r.1.reverse)

/-- Every part between occurrences of a character. -/
@[grind =] def splitAll (c : Char) : List Char → List (List Char)
  | [] => [[]]
  | d :: s =>
      if d = c then [] :: splitAll c s
      else
        match splitAll c s with
        | [] => [[d]]
        | first :: rest => (d :: first) :: rest

/-- Bytes of the characters in UTF-8. -/
def utf8Len (s : List Char) : Nat := (s.map Char.utf8Size).sum

end Graphy
