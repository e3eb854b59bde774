import Mathlib.Data.List.Basic

/-!
# Texts of words and gaps

A list cut into words with gaps between them, the words given by where they begin and end.
The spans of the words are in order and no gap runs into one.
-/

namespace Graphy

variable {α : Type} {gap : Bool → List α → Prop}

/-- The spans of the words of a text that begins at `pos`.  A gap is told whether the text
ends behind it. -/
inductive Laid (gap : Bool → List α → Prop) : Nat → List α → List (Nat × Nat) → Prop where
  | done {pos : Nat} {g : List α} (blank : gap true g) : Laid gap pos g []
  | word {pos : Nat} {g w rest : List α} {spans : List (Nat × Nat)} (blank : gap false g)
      (some_ : w ≠ []) (more : Laid gap (pos + g.length + w.length) rest spans) :
      Laid gap pos (g ++ (w ++ rest)) ((pos + g.length, pos + g.length + w.length) :: spans)

/-- The place `i` is in the span. -/
def Spanned (s : Nat × Nat) (i : Nat) : Prop := s.1 ≤ i ∧ i < s.2

namespace Laid

theorem bounds {pos : Nat} {text : List α} {spans : List (Nat × Nat)}
    (laid : Laid gap pos text spans) {s : Nat × Nat} (mem : s ∈ spans) :
    pos ≤ s.1 ∧ s.1 < s.2 ∧ s.2 ≤ pos + text.length := by
  induction laid with
  | done => cases mem
  | @word pos g w rest spans blank some_ more ih =>
      have wide := List.length_pos_iff.mpr some_
      simp only [List.length_append]
      rcases List.mem_cons.mp mem with rfl | later
      · simp only
        omega
      · have := ih later
        omega

theorem ordered {pos : Nat} {text : List α} {spans : List (Nat × Nat)}
    (laid : Laid gap pos text spans) : spans.Pairwise fun s t => s.2 ≤ t.1 := by
  induction laid with
  | done => exact .nil
  | word blank some_ more ih => exact .cons (fun t mem => (more.bounds mem).1) ih

/-- A gap in front of the text. -/
theorem prepend {pos : Nat} {g text : List α} {spans : List (Nat × Nat)}
    (joins : ∀ last h, gap last h → gap last (g ++ h))
    (laid : Laid gap (pos + g.length) text spans) : Laid gap pos (g ++ text) spans := by
  generalize begins : pos + g.length = start at laid
  cases laid with
  | done blank => exact .done (joins _ _ blank)
  | @word _ g' w rest spans blank some_ more =>
      have same : start + g'.length = pos + (g ++ g').length := by
        rw [List.length_append]
        omega
      rw [← List.append_assoc, same]
      exact .word (joins _ _ blank) some_ (by rw [← same]; exact more)

/-- Every place outside the spans is in a gap, and so is that whole gap. -/
theorem outside {pos : Nat} {text : List α} {spans : List (Nat × Nat)}
    (laid : Laid gap pos text spans) {i : Nat} (inside : i < text.length)
    (apart : ∀ s ∈ spans, ¬ Spanned s (pos + i)) :
    ∃ last before g behind, text = before ++ (g ++ behind) ∧ gap last g ∧
      before.length ≤ i ∧ i < before.length + g.length ∧
      ∀ j, before.length ≤ j → j < before.length + g.length → ∀ s ∈ spans,
        ¬ Spanned s (pos + j) := by
  induction laid generalizing i with
  | @done pos g blank =>
      exact ⟨true, [], g, [], by simp, blank, Nat.zero_le i, by simpa using inside,
        fun j _ _ s mem => nomatch mem⟩
  | @word pos g w rest spans blank some_ more ih =>
      rcases Nat.lt_or_ge i g.length with front | behind
      · refine ⟨false, [], g, w ++ rest, rfl, blank, Nat.zero_le i, by simpa using front, ?_⟩
        intro j _ high s mem covers
        simp only [List.length_nil, Nat.zero_add] at high
        unfold Spanned at covers
        rcases List.mem_cons.mp mem with rfl | later
        · simp only at covers
          omega
        · have := (more.bounds later).1
          omega
      · have pastWord : g.length + w.length ≤ i := by
          refine Nat.le_of_not_lt fun low => apart _ (List.mem_cons_self ..) ⟨?_, ?_⟩
          · simp only
            omega
          · simp only
            omega
        simp only [List.length_append] at inside
        obtain ⟨last, before, g', behind', same, blank', low, high, free⟩ :=
          ih (i := i - (g.length + w.length)) (by omega) (fun s mem covers => by
            refine apart s (List.mem_cons_of_mem _ mem) ?_
            have place : pos + g.length + w.length + (i - (g.length + w.length)) = pos + i := by
              omega
            rwa [place] at covers)
        refine ⟨last, g ++ (w ++ before), g', behind', by simp [same], blank', ?_, ?_, ?_⟩
        · simp only [List.length_append]
          omega
        · simp only [List.length_append]
          omega
        · intro j low' high' s mem covers
          simp only [List.length_append] at low' high'
          rcases List.mem_cons.mp mem with rfl | later
          · unfold Spanned at covers
            simp only at covers
            omega
          · refine free (j - (g.length + w.length)) (by omega) (by omega) s later ?_
            have place : pos + g.length + w.length + (j - (g.length + w.length)) = pos + j := by
              omega
            rwa [place]

end Laid

end Graphy
