import Graphy.Core.Rfc3986
import Mathlib.Data.List.TakeDrop
import Mathlib.Logic.Function.Iterate

/-!
# Dot segments and merging

The resolution code removes dot segments and merges paths as the standard does.
-/

namespace Graphy.Rfc3986

open Iri

theorem rsplitOnce_eq (c : Char) (s : List Char) :
    rsplitOnce c s = none ∧ s.reverse.dropWhile (fun d => d != c) = [] ∨
      ∃ before after, rsplitOnce c s = some (before, after) ∧ s = before ++ c :: after ∧
        c ∉ after ∧ s.reverse.dropWhile (fun d => d != c) = c :: before.reverse := by
  unfold rsplitOnce splitOnce
  rw [List.span_eq_takeWhile_dropWhile]
  have whole := @List.takeWhile_append_dropWhile _ (fun d => d != c) s.reverse
  cases rest : s.reverse.dropWhile (fun d => d != c) with
  | nil => exact .inl ⟨rfl, rfl⟩
  | cons d before =>
      have same : d = c := by
        have some_ : s.reverse.dropWhile (fun d => d != c) ≠ [] := by simp [rest]
        have head := List.head_dropWhile_not (fun d => d != c) some_
        simpa [rest] using head
      subst same
      refine .inr ⟨_, _, rfl, ?_, ?_, by rw [List.reverse_reverse]⟩
      · rw [rest] at whole
        have turned := congrArg List.reverse whole
        rw [List.reverse_reverse] at turned
        simpa using turned.symm
      · intro inside
        have := List.all_eq_true.mp (@List.all_takeWhile _ (fun e => e != d) s.reverse) d
          (List.mem_reverse.mp inside)
        simp at this

theorem popSegment_eq (output : List Char) : popSegment output = dropLastSegment output := by
  unfold popSegment dropLastSegment
  obtain ⟨none_, rest⟩ | ⟨before, after, some_, -, -, rest⟩ := rsplitOnce_eq '/' output
  · rw [none_, rest]
    rfl
  · rw [some_, rest]
    simp

theorem mergePaths_eq (base : IriParts) (path : List Char) :
    mergePaths base path = merge base path := by
  unfold mergePaths merge
  have cases_ : (base.authority.isSome && base.path.isEmpty) = true ↔
      base.authority.isSome ∧ base.path = [] := by
    rw [Bool.and_eq_true, List.isEmpty_iff]
  by_cases empty : base.authority.isSome ∧ base.path = []
  · rw [if_pos (cases_.mpr empty), if_pos empty]
  · rw [if_neg (mt cases_.mp empty), if_neg empty]
    obtain ⟨none_, rest⟩ | ⟨before, after, some_, -, -, rest⟩ := rsplitOnce_eq '/' base.path
    · rw [none_, rest]
      rfl
    · rw [some_, rest]
      simp

theorem step_nil (output : List Char) : step ([], output) = ([], output) := by
  simp [step, firstSegment]

theorem isPrefixOf_eq {p input : List Char} (h : p.isPrefixOf input = true) :
    ∃ rest, input = p ++ rest := by
  obtain ⟨rest, same⟩ := List.isPrefixOf_iff_prefix.mp h
  exact ⟨rest, same.symm⟩

/-- Without a dot segment in front the first segment moves. -/
theorem step_move {c : Char} {rest output : List Char}
    (h1 : ∀ tail, c = '.' → rest ≠ '.' :: '/' :: tail) (h2 : ∀ tail, c = '.' → rest ≠ '/' :: tail)
    (h3 : ∀ tail, c = '/' → rest ≠ '.' :: '/' :: tail) (h4 : c = '/' → rest ≠ ['.'])
    (h5 : ∀ tail, c = '/' → rest ≠ '.' :: '.' :: '/' :: tail) (h6 : c = '/' → rest ≠ ['.', '.'])
    (h7 : c = '.' → rest ≠ []) (h8 : c = '.' → rest ≠ ['.']) :
    step (c :: rest, output) =
      (rest.dropWhile fun d => d != '/', output ++ c :: rest.takeWhile fun d => d != '/') := by
  have dropped : (c :: rest).drop (firstSegment (c :: rest)).length =
      rest.dropWhile fun d => d != '/' := by
    have whole := @List.takeWhile_append_dropWhile _ (fun d => d != '/') rest
    rw [firstSegment, List.length_cons, List.drop_succ_cons]
    exact (congrArg _ whole.symm).trans (List.drop_left' rfl)
  unfold step
  rw [if_neg, if_neg, if_neg, if_neg, if_neg, if_neg, if_neg]
  · rw [dropped]
    rfl
  · rintro (same | same) <;> cases same
    · exact h7 rfl rfl
    · exact h8 rfl rfl
  · intro same
    cases same
    exact h6 rfl rfl
  · intro found
    obtain ⟨tail, same⟩ := isPrefixOf_eq found
    cases same
    exact h5 tail rfl rfl
  · intro same
    cases same
    exact h4 rfl rfl
  · intro found
    obtain ⟨tail, same⟩ := isPrefixOf_eq found
    cases same
    exact h3 tail rfl rfl
  · intro found
    obtain ⟨tail, same⟩ := isPrefixOf_eq found
    cases same
    exact h2 tail rfl rfl
  · intro found
    obtain ⟨tail, same⟩ := isPrefixOf_eq found
    cases same
    exact h1 tail rfl rfl

/-- A step of the buffers, then the rest with one step less. -/
theorem iterate_step {input output t output' final : List Char}
    (stepped : step (input, output) = (t, output'))
    (rest : ∀ m, t.length ≤ m → final = (step^[m] (t, output')).2)
    (shorter : t.length < input.length) (n : Nat) (h : input.length ≤ n) :
    final = (step^[n] (input, output)).2 := by
  obtain ⟨m, rfl⟩ : ∃ m, n = m + 1 := ⟨n - 1, by omega⟩
  rw [Function.iterate_succ_apply, stepped]
  exact rest m (by omega)

/-- Both follow the same rules: by induction on the recursion of the code. -/
theorem removeDotSegmentsFrom_eq (output input : List Char) :
    ∀ n, input.length ≤ n → removeDotSegmentsFrom output input = (step^[n] (input, output)).2 := by
  induction output, input using removeDotSegmentsFrom.induct with
  | case1 output =>
      intro n h
      rw [removeDotSegmentsFrom, Function.iterate_fixed (step_nil output)]
  | case2 output rest ih =>
      rw [removeDotSegmentsFrom]
      exact iterate_step (t := rest) rfl ih (by simp only [List.length_cons]; omega)
  | case3 output rest ih =>
      rw [removeDotSegmentsFrom]
      exact iterate_step (t := rest) rfl ih (by simp only [List.length_cons]; omega)
  | case4 output rest ih =>
      rw [removeDotSegmentsFrom]
      exact iterate_step (t := '/' :: rest) rfl ih (by simp)
  | case5 output ih =>
      rw [removeDotSegmentsFrom]
      exact iterate_step (t := ['/']) rfl ih (by simp)
  | case6 output rest ih =>
      rw [removeDotSegmentsFrom]
      rw [popSegment_eq] at ih ⊢
      exact iterate_step (t := '/' :: rest) rfl ih (by simp)
  | case7 output ih =>
      rw [removeDotSegmentsFrom]
      rw [popSegment_eq] at ih ⊢
      exact iterate_step (t := ['/']) rfl ih (by simp)
  | case8 output =>
      rw [removeDotSegmentsFrom]
      refine iterate_step (t := []) rfl (fun m _ => ?_) (by simp)
      rw [Function.iterate_fixed (step_nil output)]
  | case9 output =>
      rw [removeDotSegmentsFrom]
      refine iterate_step (t := []) rfl (fun m _ => ?_) (by simp)
      rw [Function.iterate_fixed (step_nil output)]
  | case10 output c rest h1 h2 h3 h4 h5 h6 h7 h8 ih =>
      rw [removeDotSegmentsFrom]
      · refine iterate_step (step_move h1 h2 h3 h4 h5 h6 h7 h8) ih ?_
        exact Nat.lt_succ_of_le (List.dropWhile_sublist _).length_le
      all_goals assumption

theorem removeDotSegments_eq (path : List Char) :
    Iri.removeDotSegments path = removeDotSegments path :=
  removeDotSegmentsFrom_eq [] path _ le_rfl

end Graphy.Rfc3986
