import Mathlib.Algebra.Ring.Nat
import Mathlib.Data.Nat.Basic
import Mathlib.Data.List.Basic

/-!
# Whole chunks within a cut

A stream of sized chunks, cut at some length, keeps the chunks that end within it.
-/

namespace Graphy

variable {α : Type*}

/-- The chunks that lie wholly within the cut. -/
def wholeWithin (size : α → Nat) : Nat → List α → List α
  | _, [] => []
  | cut, a :: chunks => if size a ≤ cut then a :: wholeWithin size (cut - size a) chunks else []

/-- Length of all chunks. -/
def totalSize (size : α → Nat) (chunks : List α) : Nat := (chunks.map size).sum

variable (size : α → Nat)

theorem totalSize_append (as bs : List α) :
    totalSize size (as ++ bs) = totalSize size as + totalSize size bs := by
  unfold totalSize
  rw [List.map_append, List.sum_append]

theorem wholeWithin_append {as : List α} {cut : Nat} (h : totalSize size as ≤ cut) (bs : List α) :
    wholeWithin size cut (as ++ bs) = as ++ wholeWithin size (cut - totalSize size as) bs := by
  induction as generalizing cut with
  | nil => rfl
  | cons a as ih =>
      have total : totalSize size (a :: as) = size a + totalSize size as := rfl
      rw [total] at h ⊢
      rw [List.cons_append, wholeWithin, if_pos (by omega), ih (by omega), Nat.sub_sub]
      rfl

/-- A cut before the end of the first chunks keeps only some of these. -/
theorem wholeWithin_append_of_lt {as : List α} {cut : Nat} (h : cut < totalSize size as)
    (bs : List α) : ∃ n, n < as.length ∧ wholeWithin size cut (as ++ bs) = as.take n := by
  induction as generalizing cut with
  | nil => cases h
  | cons a as ih =>
      have total : totalSize size (a :: as) = size a + totalSize size as := rfl
      rw [total] at h
      by_cases fits : size a ≤ cut
      · obtain ⟨n, lt, same⟩ := ih (show cut - size a < totalSize size as by omega)
        refine ⟨n + 1, by simpa using lt, ?_⟩
        rw [List.cons_append, wholeWithin, if_pos fits, same, List.take_succ_cons]
      · refine ⟨0, by simp, ?_⟩
        rw [List.cons_append, wholeWithin, if_neg fits, List.take_zero]

/-- The whole chunks are a first part of the stream, no longer than the cut. -/
theorem wholeWithin_eq_take (chunks : List α) (cut : Nat) :
    ∃ n, wholeWithin size cut chunks = chunks.take n ∧
      totalSize size (chunks.take n) ≤ cut := by
  by_cases h : totalSize size chunks ≤ cut
  · refine ⟨chunks.length, ?_, by rwa [List.take_length]⟩
    have := wholeWithin_append size h []
    rw [List.append_nil] at this
    rw [this, wholeWithin, List.append_nil, List.take_length]
  · induction chunks generalizing cut with
    | nil => exact ⟨0, rfl, Nat.zero_le _⟩
    | cons a chunks ih =>
        by_cases fits : size a ≤ cut
        · have total : totalSize size (a :: chunks) = size a + totalSize size chunks := rfl
          obtain ⟨n, same, bound⟩ := ih (cut - size a) (by omega)
          refine ⟨n + 1, ?_, ?_⟩
          · rw [wholeWithin, if_pos fits, same, List.take_succ_cons]
          · have part : totalSize size ((a :: chunks).take (n + 1)) =
                size a + totalSize size (chunks.take n) := rfl
            omega
        · refine ⟨0, ?_, Nat.zero_le _⟩
          rw [wholeWithin, if_neg fits, List.take_zero]

end Graphy
