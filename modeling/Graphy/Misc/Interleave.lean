import Mathlib.Data.List.Basic

/-!
# Interleavings

A list interleaves some lists when it takes their elements one by one, from the front of any of
them, until all are used up.
-/

namespace Graphy

variable {α : Type}

/-- The elements of all lists, each list in its own order. -/
inductive Interleaves : List (List α) → List α → Prop where
  | nil {ls : List (List α)} (empty : ∀ l ∈ ls, l = []) : Interleaves ls []
  | take {ls ls' : List (List α)} {l : List α} {x : α} {zs : List α}
      (rest : Interleaves (ls ++ l :: ls') zs) : Interleaves (ls ++ (x :: l) :: ls') (x :: zs)

namespace Interleaves

/-- Several elements of one list. -/
theorem takes {ls ls' : List (List α)} {l zs : List α} (xs : List α)
    (rest : Interleaves (ls ++ l :: ls') zs) : Interleaves (ls ++ (xs ++ l) :: ls') (xs ++ zs) := by
  induction xs with
  | nil => exact rest
  | cons x xs ih => exact ih.take

theorem nil_cons {ls : List (List α)} {zs : List α} (interleaves : Interleaves ls zs) :
    Interleaves ([] :: ls) zs := by
  induction interleaves with
  | nil empty =>
      refine .nil fun l member => ?_
      rcases List.mem_cons.mp member with rfl | member
      · rfl
      · exact empty l member
  | @take ls ls' l x zs _ ih => exact @take _ ([] :: ls) ls' l x zs ih

/-- One list after another is an interleaving. -/
theorem flatten (ls : List (List α)) : Interleaves ls ls.flatten := by
  induction ls with
  | nil => exact .nil fun l member => absurd member List.not_mem_nil
  | cons l ls ih =>
      have first := @takes _ [] ls [] ls.flatten l (by simpa using ih.nil_cons)
      rwa [List.append_nil] at first

end Interleaves

end Graphy
