import Mathlib.Data.Nat.Find
import Mathlib.Logic.Function.Iterate

/-!
# Linear probing

A walk goes from place to place until one stops it.  Around a ring of places it comes to every
place, so a walk that some place stops ends within one round.
-/

namespace Graphy

variable {β : Type}

/-- The walk from a place on, unless the fuel runs out before it is stopped. -/
def probe (next : Nat → Nat) (stop : Nat → Option β) : Nat → Nat → Option β
  | 0, _ => none
  | fuel + 1, place =>
      match stop place with
      | some b => some b
      | none => probe next stop fuel (next place)

theorem probe_first {next : Nat → Nat} {stop : Nat → Option β} {b : β} {k fuel place : Nat}
    (stops : stop (next^[k] place) = some b) (first : ∀ j < k, stop (next^[j] place) = none)
    (enough : k < fuel) : probe next stop fuel place = some b := by
  induction k generalizing fuel place with
  | zero =>
      obtain ⟨fuel, rfl⟩ := Nat.exists_eq_add_of_lt enough
      rw [Function.iterate_zero_apply] at stops
      rw [Nat.zero_add, probe, stops]
  | succ k ih =>
      obtain ⟨fuel, rfl⟩ := Nat.exists_eq_add_of_lt enough
      have go : stop place = none := first 0 (Nat.succ_pos k)
      have rest : probe next stop (k + fuel + 1) (next place) = some b :=
        ih stops (fun j less => first (j + 1) (Nat.succ_lt_succ less)) (by omega)
      rw [show k + 1 + fuel + 1 = (k + fuel + 1) + 1 by omega, probe, go]
      exact rest

/-! ## Rings of places -/

section Ring

variable {m : Nat} {next : Nat → Nat}

theorem iterate_ring (ring : ∀ place, next place = (place + 1) % m) {start : Nat}
    (inside : start < m) (k : Nat) : next^[k] start = (start + k) % m := by
  induction k with
  | zero => rw [Function.iterate_zero_apply, Nat.add_zero, Nat.mod_eq_of_lt inside]
  | succ k ih => rw [Function.iterate_succ_apply', ih, ring, Nat.mod_add_mod, Nat.add_assoc]

theorem ring_reaches {start place : Nat} (inside : start < m) (within : place < m) :
    ∃ k < m, (start + k) % m = place := by
  by_cases ahead : start ≤ place
  · refine ⟨place - start, by omega, ?_⟩
    rw [Nat.add_sub_cancel' ahead, Nat.mod_eq_of_lt within]
  · refine ⟨place + m - start, by omega, ?_⟩
    rw [Nat.add_sub_cancel' (by omega), Nat.add_mod_right, Nat.mod_eq_of_lt within]

/-- A place that stops the walk leaves a first one that does, within one round. -/
theorem exists_first {stop : Nat → Option β} {start place : Nat} (inside : start < m)
    (within : place < m) (stops : stop place ≠ none) :
    ∃ k < m, stop ((start + k) % m) ≠ none ∧ ∀ j < k, stop ((start + j) % m) = none := by
  obtain ⟨k, round, reached⟩ := ring_reaches inside within
  have exist : ∃ k, stop ((start + k) % m) ≠ none := ⟨k, by rwa [reached]⟩
  have early : Nat.find exist ≤ k := Nat.find_min' exist (by rwa [reached])
  refine ⟨Nat.find exist, Nat.lt_of_le_of_lt early round, Nat.find_spec exist, fun j less => ?_⟩
  exact not_not.mp (Nat.find_min exist less)

/-- The walk round the ring from a place on ends at the first place that stops it. -/
theorem probe_ring (ring : ∀ place, next place = (place + 1) % m) {stop : Nat → Option β}
    {start place : Nat} (inside : start < m) (within : place < m) (stops : stop place ≠ none) :
    ∃ k b, k < m ∧ stop ((start + k) % m) = some b ∧ (∀ j < k, stop ((start + j) % m) = none) ∧
      ∀ fuel, m ≤ fuel → probe next stop fuel start = some b := by
  obtain ⟨k, round, stopped, first⟩ := exists_first inside within stops
  obtain ⟨b, here⟩ := Option.ne_none_iff_exists'.mp stopped
  refine ⟨k, b, round, here, first, fun fuel enough => ?_⟩
  refine probe_first (k := k) ?_ (fun j less => ?_) (by omega)
  · rw [iterate_ring ring inside, here]
  · rw [iterate_ring ring inside, first j less]

end Ring

end Graphy
