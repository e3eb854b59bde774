import Graphy.Core.Text
import Graphy.Misc.Int128
import Mathlib.Data.List.TakeDrop

/-!
# Decimal digits

Reading digits with every step checked in 128 bits gives the number they spell
when that number fits.  Writing pads with zeros in front, which spell nothing.
-/

namespace Graphy

def digitOf (c : Char) : Nat := c.toNat - 48

/-- One more digit of a number, checked. -/
def pushDigit (v : Int) (c : Char) : Option Int := do
  let shifted ← Int128.checked (v * 10)
  Int128.checked (shifted + digitOf c)

/-- The number the digits spell, each step checked in 128 bits. -/
def accumulate (digits : List Char) : Option Int := digits.foldlM pushDigit 0

/-- A leading sign and the rest; `true` is the minus. -/
def splitSign : List Char → Bool × List Char
  | '+' :: rest => (false, rest)
  | '-' :: rest => (true, rest)
  | rest => (false, rest)

/-- Zeros in front up to a width. -/
def padLeft (width : Nat) (digits : List Char) : List Char :=
  List.replicate (width - digits.length) '0' ++ digits

theorem isAsciiDigit_eq (c : Char) : isAsciiDigit c = c.isDigit := by
  rw [Bool.eq_iff_iff, Char.isDigit_iff_toNat]
  simp [isAsciiDigit, inRanges]

/-- A digit is no sign. -/
theorem splitSign_digit {c : Char} (digit : isAsciiDigit c = true) (rest : List Char) :
    splitSign (c :: rest) = (false, c :: rest) := by
  unfold splitSign
  split
  · next same =>
      cases same
      cases digit
  · next same =>
      cases same
      cases digit
  · rfl

theorem ofDigitChars_cons (c : Char) (s : List Char) (v : Nat) :
    Nat.ofDigitChars 10 (c :: s) v = Nat.ofDigitChars 10 s (v * 10 + digitOf c) := by
  rw [Nat.ofDigitChars_cons, Nat.mul_comm]
  rfl

/-- The number read so far is at most the number read at last. -/
theorem le_ofDigitChars (s : List Char) (v : Nat) : v ≤ Nat.ofDigitChars 10 s v := by
  induction s generalizing v with
  | nil => rw [Nat.ofDigitChars_nil]
  | cons c s ih =>
      rw [ofDigitChars_cons]
      exact le_trans (by omega) (ih _)

theorem pushDigit_eq (v : Nat) (c : Char) :
    pushDigit v c = Int128.checked ((v * 10 + digitOf c : Nat) : Int) := by
  unfold pushDigit
  push_cast
  by_cases fits : Int128.Fits ((v : Int) * 10)
  · rw [Int128.checked_of_fits fits]
    rfl
  · have large : ¬ Int128.Fits ((v : Int) * 10 + digitOf c) := by
      unfold Int128.Fits Int128.minimum at *
      omega
    rw [Int128.checked_eq_none.mpr fits, Int128.checked_eq_none.mpr large]
    rfl

/-- By induction on the digits: the steps before the last fit when the last one does. -/
theorem foldlM_pushDigit (s : List Char) (v : Nat) (fits : Int128.Fits v) :
    s.foldlM pushDigit (v : Int) = Int128.checked (Nat.ofDigitChars 10 s v) := by
  induction s generalizing v with
  | nil => rw [Nat.ofDigitChars_nil, Int128.checked_of_fits fits, List.foldlM_nil]; rfl
  | cons c s ih =>
      rw [List.foldlM_cons, pushDigit_eq, ofDigitChars_cons]
      by_cases next : Int128.Fits ((v * 10 + digitOf c : Nat) : Int)
      · rw [Int128.checked_of_fits next]
        exact ih _ next
      · have grows := le_ofDigitChars s (v * 10 + digitOf c)
        have large : ¬ Int128.Fits (Nat.ofDigitChars 10 s (v * 10 + digitOf c)) := by
          unfold Int128.Fits Int128.minimum at *
          omega
        rw [Int128.checked_eq_none.mpr next, Int128.checked_eq_none.mpr large]
        rfl

theorem accumulate_eq (s : List Char) : accumulate s = Int128.checked (Nat.ofDigitChars 10 s 0) :=
  foldlM_pushDigit s 0 Int128.fits_zero

/-! ## Writing -/

theorem isAsciiDigit_of_mem_toDigits {n : Nat} {c : Char} (h : c ∈ Nat.toDigits 10 n) :
    isAsciiDigit c = true := by
  rw [isAsciiDigit_eq]
  exact Nat.isDigit_of_mem_toDigits (by decide) (by decide) h

theorem isAsciiDigit_of_mem_padLeft {width n : Nat} {c : Char}
    (h : c ∈ padLeft width (Nat.toDigits 10 n)) : isAsciiDigit c = true := by
  obtain zero | digit := List.mem_append.mp h
  · rw [List.eq_of_mem_replicate zero]
    rfl
  · exact isAsciiDigit_of_mem_toDigits digit

@[simp] theorem ofDigitChars_padLeft (width : Nat) (s : List Char) :
    Nat.ofDigitChars 10 (padLeft width s) 0 = Nat.ofDigitChars 10 s 0 := by
  rw [padLeft, Nat.ofDigitChars_append, Nat.ofDigitChars_replicate_zero, Nat.mul_zero]

theorem length_padLeft (width : Nat) (s : List Char) :
    (padLeft width s).length = max width s.length := by
  rw [padLeft, List.length_append, List.length_replicate]
  omega

end Graphy
