import Mathlib.Algebra.Ring.Nat
import Mathlib.Data.List.Basic
import Mathlib.Data.Nat.Basic
import Mathlib.Order.Lattice

/-!
# Binary search and slices of sorted lists

`lowerBound` is the usual half-interval loop with a fuel argument; `findIn`
looks a value up in a strictly increasing stretch of a list.  The second half
says what contiguous stretch of a sorted list a bound on the key selects.
-/

namespace Graphy

/-- First index of `[lo, hi)` where `below` fails, by halving the interval. -/
def lowerBound (below : Nat → Bool) : Nat → Nat → Nat → Nat
  | 0, lo, _ => lo
  | fuel + 1, lo, hi =>
      if lo < hi then
        if below ((lo + hi) / 2) then lowerBound below fuel ((lo + hi) / 2 + 1) hi
        else lowerBound below fuel lo ((lo + hi) / 2)
      else lo

theorem lowerBound_le (below : Nat → Bool) (fuel : Nat) {lo hi : Nat} (ordered : lo ≤ hi) :
    lowerBound below fuel lo hi ≤ hi := by
  induction fuel generalizing lo hi with
  | zero => exact ordered
  | succ fuel ih =>
      rw [lowerBound]
      by_cases more : lo < hi
      · rw [if_pos more]
        by_cases down : below ((lo + hi) / 2) = true
        · rw [if_pos down]
          exact ih (by omega)
        · rw [if_neg down]
          exact (ih (show lo ≤ (lo + hi) / 2 by omega)).trans (by omega)
      · rw [if_neg more]
        exact ordered

/-- With enough fuel the loop stops at the boundary of a monotone predicate. -/
theorem lowerBound_spec {below : Nat → Bool} {fuel : Nat} (lo hi : Nat) (enough : hi - lo ≤ fuel)
    (ordered : lo ≤ hi)
    (mono : ∀ i j, lo ≤ i → i ≤ j → j < hi → below j = true → below i = true) :
    lo ≤ lowerBound below fuel lo hi ∧ lowerBound below fuel lo hi ≤ hi ∧
      (∀ i, lo ≤ i → i < lowerBound below fuel lo hi → below i = true) ∧
      (∀ i, lowerBound below fuel lo hi ≤ i → i < hi → below i = false) := by
  induction fuel generalizing lo hi with
  | zero =>
      have eq : lo = hi := by omega
      subst eq
      simp only [lowerBound]
      exact ⟨le_refl _, le_refl _, fun i h1 h2 => by omega, fun i h1 h2 => by omega⟩
  | succ fuel ih =>
      simp only [lowerBound]
      by_cases open_ : lo < hi
      · rw [if_pos open_]
        by_cases left : below ((lo + hi) / 2) = true
        · rw [if_pos left]
          obtain ⟨h1, h2, h3, h4⟩ := ih ((lo + hi) / 2 + 1) hi (by omega) (by omega)
            (fun i j hi hij hj => mono i j (by omega) hij hj)
          refine ⟨by omega, h2, ?_, h4⟩
          intro i hlo hlt
          by_cases low : i ≤ (lo + hi) / 2
          · exact mono i _ hlo low (by omega) left
          · exact h3 i (by omega) hlt
        · rw [if_neg left]
          obtain ⟨h1, h2, h3, h4⟩ := ih lo ((lo + hi) / 2) (by omega) (by omega)
            (fun i j hi hij hj => mono i j hi hij (by omega))
          refine ⟨h1, by omega, h3, ?_⟩
          intro i hge hlt
          by_cases low : i < (lo + hi) / 2
          · exact h4 i hge low
          · cases e : below i with
            | false => rfl
            | true => exact absurd (mono _ i (by omega) (by omega) hlt e) left
      · rw [if_neg open_]
        exact ⟨le_refl _, by omega, fun i h1 h2 => by omega, fun i h1 h2 => by omega⟩

section Sorted

variable {κ : Type} [LinearOrder κ]

/-- Whether position `i` of the list holds a value below `v`. -/
def belowAt (xs : List κ) (v : κ) (i : Nat) : Bool :=
  match xs[i]? with
  | some x => decide (x < v)
  | none => false

/-- Look `v` up in positions `[lo, hi)` by binary search. -/
def findIn (xs : List κ) (lo hi : Nat) (v : κ) : Option Nat :=
  let i := lowerBound (belowAt xs v) (hi - lo) lo hi
  if i < hi ∧ xs[i]? = some v then some i else none

theorem findIn_some {xs : List κ} {lo hi i : Nat} {v : κ} (h : findIn xs lo hi v = some i) :
    i < hi ∧ xs[i]? = some v := by
  simp only [findIn] at h
  split at h
  · rename_i found
    exact Option.some.inj h ▸ found
  · cases h

/-- Positions `[lo, hi)` hold strictly increasing values. -/
def StrictOn (xs : List κ) (lo hi : Nat) : Prop :=
  ∀ i j a b, lo ≤ i → i < j → j < hi → xs[i]? = some a → xs[j]? = some b → a < b

theorem strictOn_of_pairwise {xs : List κ} (h : xs.Pairwise (· < ·)) (lo hi : Nat) :
    StrictOn xs lo hi := by
  intro i j a b _ hij _ ha hb
  obtain ⟨hi', rfl⟩ := List.getElem?_eq_some_iff.mp ha
  obtain ⟨hj', rfl⟩ := List.getElem?_eq_some_iff.mp hb
  exact List.pairwise_iff_getElem.mp h i j hi' hj' hij

theorem belowAt_mono {xs : List κ} {lo hi : Nat} (bound : hi ≤ xs.length)
    (strict : StrictOn xs lo hi) (v : κ) :
    ∀ i j, lo ≤ i → i ≤ j → j < hi → belowAt xs v j = true → belowAt xs v i = true := by
  intro i j hlo hij hj below
  rcases Nat.lt_or_eq_of_le hij with lt | rfl
  · have gi : xs[i]? = some xs[i] := List.getElem?_eq_getElem (by omega)
    have gj : xs[j]? = some xs[j] := List.getElem?_eq_getElem (by omega)
    have step := strict i j _ _ hlo lt hj gi gj
    simp only [belowAt, gi, gj, decide_eq_true_eq] at below ⊢
    exact lt_trans step below
  · exact below

/-- Binary search finds exactly the position that holds the value. -/
theorem findIn_eq_some_iff {xs : List κ} {lo hi : Nat} (bound : hi ≤ xs.length)
    (ordered : lo ≤ hi) (strict : StrictOn xs lo hi) {v : κ} {i : Nat} :
    findIn xs lo hi v = some i ↔ lo ≤ i ∧ i < hi ∧ xs[i]? = some v := by
  obtain ⟨h1, h2, h3, h4⟩ := lowerBound_spec lo hi (le_refl (hi - lo)) ordered
    (belowAt_mono bound strict v)
  simp only [findIn]
  constructor
  · intro h
    split at h
    · rename_i found
      cases h
      exact ⟨h1, found.1, found.2⟩
    · cases h
  · rintro ⟨hlo, hhi, hv⟩
    have notBelow : belowAt xs v i = false := by simp [belowAt, hv]
    have le : lowerBound (belowAt xs v) (hi - lo) lo hi ≤ i := by
      by_contra gt
      have := h3 i hlo (by omega)
      simp [notBelow] at this
    rcases Nat.lt_or_eq_of_le le with lt | eq
    · have stop := h4 _ (le_refl _) (by omega)
      have get : xs[lowerBound (belowAt xs v) (hi - lo) lo hi]? = some _ :=
        List.getElem?_eq_getElem (by omega)
      have step := strict _ _ _ _ h1 lt hhi get hv
      simp [belowAt, get, step] at stop
    · rw [eq, if_pos ⟨hhi, hv⟩]

end Sorted

/-! ## Slices -/

section Slices

variable {α κ : Type} [LinearOrder κ]

/-- Positions `[lo, hi)` of a list. -/
def slice (l : List α) (lo hi : Nat) : List α := (l.drop lo).take (hi - lo)

@[simp] theorem slice_self (l : List α) (i : Nat) : slice l i i = [] := by simp [slice]

theorem slice_zero (l : List α) {hi : Nat} (h : l.length ≤ hi) : slice l 0 hi = l := by
  simp [slice, List.take_of_length_le h]

theorem slice_eq_cons {l : List α} {lo hi : Nat} (h : lo < hi) {a : α} (ha : l[lo]? = some a) :
    slice l lo hi = a :: slice l (lo + 1) hi := by
  obtain ⟨bound, rfl⟩ := List.getElem?_eq_some_iff.mp ha
  obtain ⟨n, hn⟩ : ∃ n, hi - lo = n + 1 := ⟨hi - lo - 1, by omega⟩
  have hn' : hi - (lo + 1) = n := by omega
  simp only [slice, hn, hn', List.drop_eq_getElem_cons bound, List.take_succ_cons]

theorem mem_slice {l : List α} {lo hi : Nat} {a : α} :
    a ∈ slice l lo hi ↔ ∃ i, lo ≤ i ∧ i < hi ∧ l[i]? = some a := by
  simp only [slice, List.mem_iff_getElem?, List.getElem?_take, List.getElem?_drop]
  constructor
  · rintro ⟨i, hi'⟩
    split at hi'
    · exact ⟨lo + i, by omega, by omega, hi'⟩
    · cases hi'
  · rintro ⟨i, hlo, hhi, ha⟩
    refine ⟨i - lo, ?_⟩
    rw [if_pos (by omega), show lo + (i - lo) = i by omega]
    exact ha

theorem slice_append {l : List α} {lo mid hi : Nat} (h1 : lo ≤ mid) (h2 : mid ≤ hi) :
    slice l lo hi = slice l lo mid ++ slice l mid hi := by
  simp only [slice]
  rw [show hi - lo = (mid - lo) + (hi - mid) by omega, List.take_add, List.drop_drop,
    show lo + (mid - lo) = mid by omega]

variable {key : α → κ}

/-- In a sorted list position `i` comes after the elements below `c` exactly when
its own key is not below `c`. -/
theorem countP_lt_le_index {l : List α} (sorted : l.Pairwise (fun a b => key a ≤ key b))
    {i : Nat} {a : α} (ha : l[i]? = some a) (c : κ) :
    l.countP (fun b => decide (key b < c)) ≤ i ↔ c ≤ key a := by
  induction l generalizing i with
  | nil => simp at ha
  | cons b l ih =>
      obtain ⟨first, rest⟩ := List.pairwise_cons.mp sorted
      cases i with
      | zero =>
          have eq : b = a := by simpa using ha
          subst eq
          by_cases below : key b < c
          · simp [below]
          · have none : l.countP (fun b => decide (key b < c)) = 0 := by
              rw [List.countP_eq_zero]
              intro e he
              simpa using le_trans (not_lt.mp below) (first e he)
            simpa [none, below] using not_lt.mp below
      | succ i =>
          have ha' : l[i]? = some a := by simpa using ha
          by_cases below : key b < c
          · simp [below, ih rest ha']
          · have none : l.countP (fun b => decide (key b < c)) = 0 := by
              rw [List.countP_eq_zero]
              intro e he
              simpa using le_trans (not_lt.mp below) (first e he)
            simpa [none, below] using
              le_trans (not_lt.mp below) (first a (List.mem_of_getElem? ha'))

/-- In a sorted list position `i` is among the elements up to `c` exactly when its
own key is at most `c`. -/
theorem index_lt_countP_le {l : List α} (sorted : l.Pairwise (fun a b => key a ≤ key b))
    {i : Nat} {a : α} (ha : l[i]? = some a) (c : κ) :
    i < l.countP (fun b => decide (key b ≤ c)) ↔ key a ≤ c := by
  induction l generalizing i with
  | nil => simp at ha
  | cons b l ih =>
      obtain ⟨first, rest⟩ := List.pairwise_cons.mp sorted
      have noneAbove (above : ¬ key b ≤ c) : l.countP (fun b => decide (key b ≤ c)) = 0 := by
        rw [List.countP_eq_zero]
        intro e he
        simpa using lt_of_lt_of_le (not_le.mp above) (first e he)
      cases i with
      | zero =>
          have eq : b = a := by simpa using ha
          subst eq
          by_cases below : key b ≤ c
          · simp [below]
          · simp [below, noneAbove below]
      | succ i =>
          have ha' : l[i]? = some a := by simpa using ha
          by_cases below : key b ≤ c
          · simp [below, ih rest ha']
          · simpa [below, noneAbove below] using
              lt_of_lt_of_le (not_le.mp below) (first a (List.mem_of_getElem? ha'))

/-- In a strictly sorted list the elements below the `k`-th are the `k` before it. -/
theorem countP_lt_of_strict {l : List α} (strict : l.Pairwise (fun a b => key a < key b)) {k : Nat}
    {b : α} (hb : l[k]? = some b) : l.countP (fun a => decide (key a < key b)) = k := by
  have sorted : l.Pairwise (fun a b => key a ≤ key b) := strict.imp le_of_lt
  have le := (countP_lt_le_index sorted hb (key b)).mpr (le_refl _)
  by_contra ne
  have bound := (List.getElem?_eq_some_iff.mp hb).1
  obtain ⟨a, ha⟩ : ∃ a, l[l.countP (fun a => decide (key a < key b))]? = some a :=
    ⟨_, List.getElem?_eq_getElem (by omega)⟩
  have ge := (countP_lt_le_index sorted ha (key b)).mp (le_refl _)
  have lt := List.pairwise_iff_getElem.mp strict _ k (List.getElem?_eq_some_iff.mp ha).1 bound
    (by omega)
  rw [(List.getElem?_eq_some_iff.mp ha).2, (List.getElem?_eq_some_iff.mp hb).2] at lt
  exact absurd lt (not_lt.mpr ge)

theorem countP_le_of_strict {l : List α} (strict : l.Pairwise (fun a b => key a < key b)) {k : Nat}
    {b : α} (hb : l[k]? = some b) : l.countP (fun a => decide (key a ≤ key b)) = k + 1 := by
  have sorted : l.Pairwise (fun a b => key a ≤ key b) := strict.imp le_of_lt
  have gt := (index_lt_countP_le sorted hb (key b)).mpr (le_refl _)
  have bound : l.countP (fun a => decide (key a ≤ key b)) ≤ l.length := List.countP_le_length
  by_contra ne
  obtain ⟨a, ha⟩ : ∃ a, l[k + 1]? = some a := ⟨_, List.getElem?_eq_getElem (by omega)⟩
  have le := (index_lt_countP_le sorted ha (key b)).mp (by omega)
  have lt := List.pairwise_iff_getElem.mp strict k (k + 1) (List.getElem?_eq_some_iff.mp hb).1
    (List.getElem?_eq_some_iff.mp ha).1 (by omega)
  rw [(List.getElem?_eq_some_iff.mp ha).2, (List.getElem?_eq_some_iff.mp hb).2] at lt
  exact absurd lt (not_lt.mpr le)

variable (key) in
theorem countP_lt_le {l : List α} (c : κ) :
    l.countP (fun a => decide (key a < c)) ≤ l.countP (fun a => decide (key a ≤ c)) := by
  apply List.countP_mono_left
  intro a _ h
  simp only [decide_eq_true_eq] at h ⊢
  exact h.le

end Slices

end Graphy
