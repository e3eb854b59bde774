import Mathlib.Data.List.Pairwise
import Mathlib.Order.Lattice

/-!
# Overlaying changes on a sorted list

A zipper of two lists sorted by one key: the rows below, and changes that put a
row in or take one out.  Where both have a key the change decides.
-/

namespace Graphy

variable {α κ : Type} [LinearOrder κ]

/-- A change as the rows it leaves. -/
def changeRows (change : α × Bool) : List α := if change.2 then [change.1] else []

/-- The rows under the changes, in the order of the key. -/
def overlay (key : α → κ) : List α → List (α × Bool) → List α
  | [], [] => []
  | row :: rows, [] => row :: overlay key rows []
  | [], change :: changes => changeRows change ++ overlay key [] changes
  | row :: rows, change :: changes =>
      if key row < key change.1 then row :: overlay key rows (change :: changes)
      else if key change.1 < key row then changeRows change ++ overlay key (row :: rows) changes
      else changeRows change ++ overlay key rows changes
termination_by rows changes => rows.length + changes.length

variable {key : α → κ}

@[simp] theorem mem_changeRows {change : α × Bool} {a : α} :
    a ∈ changeRows change ↔ change = (a, true) := by
  obtain ⟨b, keep⟩ := change
  cases keep
  · simp [changeRows]
  · simp [changeRows, eq_comm]

theorem overlay_nil (rows : List α) : overlay key rows [] = rows := by
  induction rows with
  | nil => rw [overlay]
  | cons row rows ih => rw [overlay, ih]

/-- Sorted strictly by the key. -/
abbrev Ascending (key : α → κ) (rows : List α) : Prop := rows.Pairwise fun a b => key a < key b

/-- What an overlay shows: the rows put in, and the rows no change names. -/
theorem mem_overlay {rows : List α} {changes : List (α × Bool)} (sorted : Ascending key rows)
    (changesSorted : Ascending (fun c => key c.1) changes) {a : α} :
    a ∈ overlay key rows changes ↔
      (a, true) ∈ changes ∨ (a ∈ rows ∧ ∀ c ∈ changes, key c.1 ≠ key a) := by
  induction rows, changes using overlay.induct key with
  | case1 => simp [overlay]
  | case2 row rows ih => simp [overlay_nil]
  | case3 change changes ih =>
      have ih := ih List.Pairwise.nil (List.pairwise_cons.mp changesSorted).2
      rw [overlay, List.mem_append, ih, mem_changeRows]
      simp [eq_comm]
  | case4 row rows change changes below ih =>
      obtain ⟨above, rest⟩ := List.pairwise_cons.mp sorted
      rw [overlay, if_pos below, List.mem_cons, ih rest changesSorted, List.mem_cons (b := row)]
      have apart : ∀ c ∈ change :: changes, key c.1 ≠ key row := by
        intro c mem
        rcases List.mem_cons.mp mem with rfl | mem
        · exact ne_of_gt below
        · exact ne_of_gt (lt_trans below ((List.pairwise_cons.mp changesSorted).1 c mem))
      constructor
      · rintro (rfl | put | ⟨mem, free⟩)
        · exact Or.inr ⟨Or.inl rfl, apart⟩
        · exact Or.inl put
        · exact Or.inr ⟨Or.inr mem, free⟩
      · rintro (put | ⟨rfl | mem, free⟩)
        · exact Or.inr (Or.inl put)
        · exact Or.inl rfl
        · exact Or.inr (Or.inr ⟨mem, free⟩)
  | case5 row rows change changes notBelow above ih =>
      obtain ⟨first, rest⟩ := List.pairwise_cons.mp changesSorted
      rw [overlay, if_neg notBelow, if_pos above, List.mem_append, ih sorted rest, mem_changeRows,
        List.mem_cons (b := change), List.forall_mem_cons]
      have apart : ∀ b ∈ row :: rows, key change.1 ≠ key b := by
        intro b mem
        rcases List.mem_cons.mp mem with rfl | mem
        · exact ne_of_lt above
        · exact ne_of_lt (lt_trans above ((List.pairwise_cons.mp sorted).1 b mem))
      constructor
      · rintro (put | put | ⟨mem, free⟩)
        · exact Or.inl (Or.inl put.symm)
        · exact Or.inl (Or.inr put)
        · exact Or.inr ⟨mem, apart a mem, free⟩
      · rintro ((put | put) | ⟨mem, -, free⟩)
        · exact Or.inl put.symm
        · exact Or.inr (Or.inl put)
        · exact Or.inr (Or.inr ⟨mem, free⟩)
  | case6 row rows change changes notBelow notAbove ih =>
      have same : key row = key change.1 := le_antisymm (not_lt.mp notAbove) (not_lt.mp notBelow)
      obtain ⟨first, restChanges⟩ := List.pairwise_cons.mp changesSorted
      obtain ⟨above, rest⟩ := List.pairwise_cons.mp sorted
      rw [overlay, if_neg notBelow, if_neg notAbove, List.mem_append, ih rest restChanges,
        mem_changeRows, List.mem_cons (b := change), List.mem_cons (b := row),
        List.forall_mem_cons]
      constructor
      · rintro (put | put | ⟨mem, free⟩)
        · exact Or.inl (Or.inl put.symm)
        · exact Or.inl (Or.inr put)
        · exact Or.inr ⟨Or.inr mem, ne_of_lt (same ▸ above a mem), free⟩
      · rintro ((put | put) | ⟨rfl | mem, free, rest⟩)
        · exact Or.inl put.symm
        · exact Or.inr (Or.inl put)
        · exact absurd same.symm free
        · exact Or.inr (Or.inr ⟨mem, rest⟩)

/-- A lower bound of both lists is one of the overlay. -/
theorem lt_of_mem_overlay {rows : List α} {changes : List (α × Bool)} {k : κ}
    (rowsAbove : ∀ b ∈ rows, k < key b) (changesAbove : ∀ c ∈ changes, k < key c.1) {a : α}
    (mem : a ∈ overlay key rows changes) : k < key a := by
  induction rows, changes using overlay.induct key with
  | case1 => simp [overlay] at mem
  | case2 row rows ih => exact rowsAbove a (by simpa [overlay_nil] using mem)
  | case3 change changes ih =>
      rw [overlay, List.mem_append, mem_changeRows] at mem
      rcases mem with rfl | mem
      · exact changesAbove _ List.mem_cons_self
      · exact ih (by simp) (fun c h => changesAbove c (List.mem_cons_of_mem _ h)) mem
  | case4 row rows change changes below ih =>
      rw [overlay, if_pos below, List.mem_cons] at mem
      rcases mem with rfl | mem
      · exact rowsAbove _ List.mem_cons_self
      · exact ih (fun b h => rowsAbove b (List.mem_cons_of_mem _ h)) changesAbove mem
  | case5 row rows change changes notBelow above ih =>
      rw [overlay, if_neg notBelow, if_pos above, List.mem_append, mem_changeRows] at mem
      rcases mem with rfl | mem
      · exact changesAbove _ List.mem_cons_self
      · exact ih rowsAbove (fun c h => changesAbove c (List.mem_cons_of_mem _ h)) mem
  | case6 row rows change changes notBelow notAbove ih =>
      rw [overlay, if_neg notBelow, if_neg notAbove, List.mem_append, mem_changeRows] at mem
      rcases mem with rfl | mem
      · exact changesAbove _ List.mem_cons_self
      · exact ih (fun b h => rowsAbove b (List.mem_cons_of_mem _ h))
          (fun c h => changesAbove c (List.mem_cons_of_mem _ h)) mem

/-- The rows of a change in front of rows above it. -/
theorem ascending_changeRows {change : α × Bool} {rows : List α} (sorted : Ascending key rows)
    (above : ∀ b ∈ rows, key change.1 < key b) : Ascending key (changeRows change ++ rows) := by
  obtain ⟨a, keep⟩ := change
  cases keep
  · exact sorted
  · exact List.pairwise_cons.mpr ⟨above, sorted⟩

theorem ascending_overlay {rows : List α} {changes : List (α × Bool)} (sorted : Ascending key rows)
    (changesSorted : Ascending (fun c => key c.1) changes) :
    Ascending key (overlay key rows changes) := by
  induction rows, changes using overlay.induct key with
  | case1 => simp [overlay]
  | case2 row rows ih => rwa [overlay_nil]
  | case3 change changes ih =>
      obtain ⟨first, rest⟩ := List.pairwise_cons.mp changesSorted
      rw [overlay]
      exact ascending_changeRows (ih sorted rest) fun b mem =>
        lt_of_mem_overlay (by simp) first mem
  | case4 row rows change changes below ih =>
      obtain ⟨above, rest⟩ := List.pairwise_cons.mp sorted
      rw [overlay, if_pos below]
      refine List.pairwise_cons.mpr ⟨fun b mem => ?_, ih rest changesSorted⟩
      refine lt_of_mem_overlay above ?_ mem
      intro c inside
      rcases List.mem_cons.mp inside with rfl | inside
      · exact below
      · exact lt_trans below ((List.pairwise_cons.mp changesSorted).1 c inside)
  | case5 row rows change changes notBelow above ih =>
      obtain ⟨first, rest⟩ := List.pairwise_cons.mp changesSorted
      rw [overlay, if_neg notBelow, if_pos above]
      refine ascending_changeRows (ih sorted rest) fun b mem => ?_
      refine lt_of_mem_overlay ?_ first mem
      intro r inside
      rcases List.mem_cons.mp inside with rfl | inside
      · exact above
      · exact lt_trans above ((List.pairwise_cons.mp sorted).1 r inside)
  | case6 row rows change changes notBelow notAbove ih =>
      have same : key row = key change.1 := le_antisymm (not_lt.mp notAbove) (not_lt.mp notBelow)
      obtain ⟨first, restChanges⟩ := List.pairwise_cons.mp changesSorted
      obtain ⟨above, rest⟩ := List.pairwise_cons.mp sorted
      rw [overlay, if_neg notBelow, if_neg notAbove]
      exact ascending_changeRows (ih rest restChanges) fun b mem =>
        lt_of_mem_overlay (fun r inside => lt_of_eq_of_lt same.symm (above r inside)) first mem

end Graphy
