import Mathlib.Data.List.Pairwise
import Mathlib.Data.List.TakeWhile
import Mathlib.Order.MinMax

/-!
# Merging sorted sources

Any number of sources, each a list of entries in ascending order of their keys, are taken
apart into groups: a key, with everything the sources have under it.
-/

namespace Graphy

/-- The least item of a list. -/
def least {α : Type} [LinearOrder α] : List α → Option α
  | [] => none
  | a :: l => some ((least l).elim a (min a))

theorem least_spec {α : Type} [LinearOrder α] {l : List α} {a : α} (h : least l = some a) :
    a ∈ l ∧ ∀ b ∈ l, a ≤ b := by
  induction l generalizing a with
  | nil => cases h
  | cons c l ih =>
      simp only [least, Option.some.injEq] at h
      cases rest : least l with
      | none =>
          have bare : l = [] := by
            cases l with
            | nil => rfl
            | cons => cases rest
          rw [rest, Option.elim_none] at h
          subst bare h
          simp
      | some d =>
          rw [rest, Option.elim_some] at h
          obtain ⟨mem, bound⟩ := ih rest
          subst h
          refine ⟨?_, fun b hb => ?_⟩
          · rcases min_choice c d with eq | eq
            · rw [eq]
              exact List.mem_cons_self
            · rw [eq]
              exact List.mem_cons_of_mem _ mem
          · rcases List.mem_cons.mp hb with rfl | later
            · exact min_le_left _ _
            · exact (min_le_right _ _).trans (bound b later)

/-- Tagged lists of entries. -/
abbrev Sources (ι κ ν : Type) := List (ι × List (κ × ν))

namespace Sources

variable {ι κ ν : Type} [LinearOrder κ]

/-- The least key at the head of a source. -/
def leastKey (sources : Sources ι κ ν) : Option κ :=
  least (sources.filterMap fun s => s.2.head?.map Prod.fst)

/-- What the sources have at their heads under a key. -/
def under (sources : Sources ι κ ν) (k : κ) : List (ι × ν) :=
  sources.flatMap fun s => (s.2.takeWhile fun e => decide (e.1 = k)).map fun e => (s.1, e.2)

/-- The sources behind a key. -/
def after (sources : Sources ι κ ν) (k : κ) : Sources ι κ ν :=
  sources.map fun s => (s.1, s.2.dropWhile fun e => decide (e.1 = k))

/-- The groups, until the sources or the fuel run out. -/
def groups : Nat → Sources ι κ ν → List (κ × List (ι × ν))
  | 0, _ => []
  | fuel + 1, sources =>
      match sources.leastKey with
      | none => []
      | some k => (k, sources.under k) :: groups fuel (sources.after k)

/-- Every source is in ascending order of its keys. -/
def Sorted (sources : Sources ι κ ν) : Prop :=
  ∀ s ∈ sources, s.2.Pairwise fun a b => a.1 ≤ b.1

/-- An entry of the source under its tag. -/
def Has (sources : Sources ι κ ν) (k : κ) (m : ι × ν) : Prop :=
  ∃ s ∈ sources, s.1 = m.1 ∧ (k, m.2) ∈ s.2

theorem has_after {sources : Sources ι κ ν} {k k' : κ} {m : ι × ν}
    (h : (sources.after k).Has k' m) : sources.Has k' m := by
  obtain ⟨s, mem, tag, entry⟩ := h
  obtain ⟨s', mem', rfl⟩ := List.mem_map.mp mem
  exact ⟨s', mem', tag, (List.dropWhile_sublist _).mem entry⟩

theorem sorted_after {sources : Sources ι κ ν} (sorted : sources.Sorted) (k : κ) :
    (sources.after k).Sorted := by
  intro s mem
  obtain ⟨s', mem', rfl⟩ := List.mem_map.mp mem
  exact (sorted s' mem').sublist (List.dropWhile_sublist _)

theorem has_of_mem_under {sources : Sources ι κ ν} {k : κ} {m : ι × ν}
    (h : m ∈ sources.under k) : sources.Has k m := by
  obtain ⟨s, mem, entry⟩ := List.mem_flatMap.mp h
  obtain ⟨e, found, rfl⟩ := List.mem_map.mp entry
  have key : e.1 = k := by simpa using List.mem_takeWhile_imp found
  exact ⟨s, mem, rfl, key ▸ (List.takeWhile_sublist _).mem found⟩

/-- No source has a key below the least one. -/
theorem leastKey_le {sources : Sources ι κ ν} (sorted : sources.Sorted) {k : κ}
    (first : sources.leastKey = some k) {k' : κ} {m : ι × ν} (h : sources.Has k' m) : k ≤ k' := by
  obtain ⟨s, mem, -, entry⟩ := h
  have bound := (least_spec first).2
  cases shape : s.2 with
  | nil =>
      rw [shape] at entry
      cases entry
  | cons e rest =>
      have head : e.1 ∈ sources.filterMap fun s => s.2.head?.map Prod.fst :=
        List.mem_filterMap.mpr ⟨s, mem, by rw [shape]; rfl⟩
      refine (bound _ head).trans ?_
      rw [shape] at entry
      rcases List.mem_cons.mp entry with rfl | later
      · exact le_refl _
      · have all := sorted s mem
        rw [shape] at all
        exact (List.pairwise_cons.mp all).1 _ later

/-- Behind the least key every key is above it. -/
theorem lt_of_has_after {sources : Sources ι κ ν} (sorted : sources.Sorted) {k : κ}
    (first : sources.leastKey = some k) {k' : κ} {m : ι × ν} (h : (sources.after k).Has k' m) :
    k < k' := by
  refine lt_of_le_of_ne (leastKey_le sorted first (has_after h)) ?_
  rintro rfl
  obtain ⟨s, mem, -, entry⟩ := h
  obtain ⟨s', mem', rfl⟩ := List.mem_map.mp mem
  simp only at entry
  cases shape : s'.2.dropWhile fun e => decide (e.1 = k) with
  | nil =>
      rw [shape] at entry
      cases entry
  | cons e rest =>
      have ne : e.1 ≠ k := by
        have := List.dropWhile_get_zero_not (fun e : κ × ν => decide (e.1 = k)) s'.2
          (by rw [shape]; simp)
        simpa [shape] using this
      have all := (sorted s' mem').sublist
        (List.dropWhile_sublist fun e : κ × ν => decide (e.1 = k))
      have here : e ∈ s'.2 := (List.dropWhile_sublist fun e : κ × ν => decide (e.1 = k)).mem
        (by rw [shape]; exact List.mem_cons_self)
      have above := leastKey_le sorted first (m := (s'.1, e.2)) ⟨s', mem', rfl, here⟩
      rw [shape] at entry all
      rcases List.mem_cons.mp entry with rfl | later
      · exact ne rfl
      · exact ne (le_antisymm ((List.pairwise_cons.mp all).1 _ later) above)

/-- A group holds entries of its key. -/
theorem has_of_mem_groups {fuel : Nat} {sources : Sources ι κ ν} {g : κ × List (ι × ν)}
    (h : g ∈ groups fuel sources) : ∀ m ∈ g.2, sources.Has g.1 m := by
  induction fuel generalizing sources with
  | zero => cases h
  | succ fuel ih =>
      simp only [groups] at h
      split at h
      · cases h
      · rcases List.mem_cons.mp h with rfl | later
        · exact fun m => has_of_mem_under
        · exact fun m mem => has_after (ih later m mem)

theorem exists_has_of_mem_groups {fuel : Nat} {sources : Sources ι κ ν} {g : κ × List (ι × ν)}
    (h : g ∈ groups fuel sources) : ∃ m, sources.Has g.1 m := by
  induction fuel generalizing sources with
  | zero => cases h
  | succ fuel ih =>
      simp only [groups] at h
      split at h
      · cases h
      · rename_i k first
        rcases List.mem_cons.mp h with rfl | later
        · obtain ⟨s, mem, head⟩ := List.mem_filterMap.mp (least_spec first).1
          obtain ⟨e, here, rfl⟩ := Option.map_eq_some_iff.mp head
          exact ⟨(s.1, e.2), s, mem, rfl, List.mem_of_mem_head? here⟩
        · obtain ⟨m, has⟩ := ih later
          exact ⟨m, has_after has⟩

/-- The groups come in strictly ascending order of their keys. -/
theorem ascending_groups {fuel : Nat} {sources : Sources ι κ ν} (sorted : sources.Sorted) :
    (groups fuel sources).Pairwise fun a b => a.1 < b.1 := by
  induction fuel generalizing sources with
  | zero => exact List.Pairwise.nil
  | succ fuel ih =>
      simp only [groups]
      split
      · exact List.Pairwise.nil
      · rename_i k first
        refine List.pairwise_cons.mpr ⟨fun g mem => ?_, ih (sorted_after sorted k)⟩
        obtain ⟨m, has⟩ := exists_has_of_mem_groups mem
        exact lt_of_has_after sorted first has

end Sources

end Graphy
