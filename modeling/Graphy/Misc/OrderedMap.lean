import Mathlib.Algebra.Ring.Nat
import Mathlib.Data.List.Basic
import Mathlib.Order.Lattice

/-!
# Ordered maps

A map kept as a list of entries with strictly increasing keys.  `alter` rewrites
or inserts the value of one key, `filterMapVal` rewrites or drops every value.
-/

namespace Graphy

structure OrderedMap (κ ν : Type) [LinearOrder κ] where
  entries : List (κ × ν)
  sorted : entries.Pairwise (fun a b => a.1 < b.1)

namespace OrderedMap

variable {κ ν : Type} [LinearOrder κ]

def empty : OrderedMap κ ν := ⟨[], List.Pairwise.nil⟩

def lookup (k : κ) : List (κ × ν) → Option ν
  | [] => none
  | (k', v) :: l => if k' = k then some v else lookup k l

def get? (m : OrderedMap κ ν) (k : κ) : Option ν := lookup k m.entries

/-- Rewrite the value of `k`, or insert one at its place. -/
def alterEntries (k : κ) (f : Option ν → ν) : List (κ × ν) → List (κ × ν)
  | [] => [(k, f none)]
  | (k', v) :: l =>
      if k < k' then (k, f none) :: (k', v) :: l
      else if k' = k then (k, f (some v)) :: l
      else (k', v) :: alterEntries k f l

theorem mem_alterEntries {k : κ} {f : Option ν → ν} {l : List (κ × ν)} {e : κ × ν}
    (h : e ∈ alterEntries k f l) : e.1 = k ∨ e ∈ l := by
  induction l with
  | nil =>
      simp only [alterEntries, List.mem_singleton] at h
      exact Or.inl (by rw [h])
  | cons a l ih =>
      simp only [alterEntries] at h
      split at h
      · rcases List.mem_cons.mp h with rfl | later
        · exact Or.inl rfl
        · exact Or.inr later
      · split at h
        · rcases List.mem_cons.mp h with rfl | later
          · exact Or.inl rfl
          · exact Or.inr (List.mem_cons_of_mem _ later)
        · rcases List.mem_cons.mp h with rfl | later
          · exact Or.inr (by simp)
          · rcases ih later with eq | mem
            · exact Or.inl eq
            · exact Or.inr (List.mem_cons_of_mem _ mem)

theorem sorted_alterEntries {k : κ} {f : Option ν → ν} {l : List (κ × ν)}
    (sorted : l.Pairwise (fun a b => a.1 < b.1)) :
    (alterEntries k f l).Pairwise (fun a b => a.1 < b.1) := by
  induction l with
  | nil => simp [alterEntries]
  | cons a l ih =>
      obtain ⟨first, rest⟩ := List.pairwise_cons.mp sorted
      simp only [alterEntries]
      split
      · rename_i lt
        refine List.pairwise_cons.mpr ⟨?_, sorted⟩
        intro b hb
        rcases List.mem_cons.mp hb with rfl | later
        · exact lt
        · exact lt.trans (first b later)
      · split
        · rename_i eq
          exact List.pairwise_cons.mpr ⟨fun b hb => eq ▸ first b hb, rest⟩
        · rename_i notLt ne
          refine List.pairwise_cons.mpr ⟨?_, ih rest⟩
          intro b hb
          rcases mem_alterEntries hb with eq | mem
          · rw [eq]
            exact lt_of_le_of_ne (not_lt.mp notLt) ne
          · exact first b mem

def alter (m : OrderedMap κ ν) (k : κ) (f : Option ν → ν) : OrderedMap κ ν :=
  ⟨alterEntries k f m.entries, sorted_alterEntries m.sorted⟩

/-- Rewrite every value, dropping the keys that get none. -/
def filterMapVal (m : OrderedMap κ ν) (f : κ → ν → Option ν) : OrderedMap κ ν where
  entries := m.entries.filterMap fun e => (f e.1 e.2).map fun v => (e.1, v)
  sorted := by
    refine List.Pairwise.filterMap _ ?_ m.sorted
    intro a a' lt b hb b' hb'
    obtain ⟨v, -, rfl⟩ := Option.map_eq_some_iff.mp hb
    obtain ⟨v', -, rfl⟩ := Option.map_eq_some_iff.mp hb'
    exact lt

/-- The entries from `lo` on, and below `hi` when there is an upper bound. -/
def range (m : OrderedMap κ ν) (lo : κ) (hi : Option κ) : List (κ × ν) :=
  m.entries.filter fun e => decide (lo ≤ e.1) && hi.all fun h => decide (e.1 < h)

@[simp] theorem get?_empty (k : κ) : (empty : OrderedMap κ ν).get? k = none := rfl

theorem lookup_eq_none {k : κ} {l : List (κ × ν)} (h : ∀ e ∈ l, e.1 ≠ k) : lookup k l = none := by
  induction l with
  | nil => rfl
  | cons a l ih =>
      simp only [lookup]
      rw [if_neg (h a (by simp)), ih fun e he => h e (by simp [he])]

theorem lookup_eq_some_iff {l : List (κ × ν)} (sorted : l.Pairwise (fun a b => a.1 < b.1)) {k : κ}
    {v : ν} : lookup k l = some v ↔ (k, v) ∈ l := by
  induction l with
  | nil => simp [lookup]
  | cons a l ih =>
      obtain ⟨first, rest⟩ := List.pairwise_cons.mp sorted
      obtain ⟨k', v'⟩ := a
      simp only [lookup, List.mem_cons, Prod.mk.injEq]
      by_cases eq : k' = k
      · rw [if_pos eq]
        constructor
        · intro h
          exact Or.inl ⟨eq.symm, (Option.some.inj h).symm⟩
        · rintro (⟨-, rfl⟩ | mem)
          · rfl
          · exact absurd eq (ne_of_lt (first _ mem))
      · rw [if_neg eq, ih rest]
        constructor
        · exact Or.inr
        · rintro (⟨rfl, -⟩ | mem)
          · exact absurd rfl eq
          · exact mem

/-- The entries are exactly the bindings. -/
theorem mem_entries_iff {m : OrderedMap κ ν} {k : κ} {v : ν} :
    (k, v) ∈ m.entries ↔ m.get? k = some v :=
  (lookup_eq_some_iff m.sorted).symm

theorem get?_alter (m : OrderedMap κ ν) (k k' : κ) (f : Option ν → ν) :
    (m.alter k f).get? k' = if k = k' then some (f (m.get? k)) else m.get? k' := by
  obtain ⟨l, sorted⟩ := m
  simp only [get?, alter]
  induction l with
  | nil => simp [alterEntries, lookup]
  | cons a l ih =>
      obtain ⟨first, rest⟩ := List.pairwise_cons.mp sorted
      obtain ⟨ka, va⟩ := a
      simp only [alterEntries]
      by_cases lt : k < ka
      · have missing : lookup k ((ka, va) :: l) = none := by
          apply lookup_eq_none
          intro e he
          rcases List.mem_cons.mp he with rfl | later
          · exact ne_of_gt lt
          · exact ne_of_gt (lt.trans (first e later))
        rw [if_pos lt, missing]
        by_cases eq : k = k'
        · simp [lookup, eq]
        · simp [lookup, eq]
      · rw [if_neg lt]
        by_cases same : ka = k
        · subst same
          by_cases eq : ka = k'
          · simp [lookup, eq]
          · simp [lookup, eq]
        · rw [if_neg same]
          simp only [lookup, if_neg same]
          by_cases eq : ka = k'
          · have ne : ¬ k = k' := fun e => same (eq.trans e.symm)
            simp [eq, ne]
          · simp only [if_neg eq]
            exact ih rest

/-- Altering one key changes a sum over the values by what that key's value changes. -/
theorem sum_alter (m : OrderedMap κ ν) (k : κ) (f : Option ν → ν) (w : ν → Nat) :
    ((m.alter k f).entries.map fun e => w e.2).sum + (m.get? k).elim 0 w =
      (m.entries.map fun e => w e.2).sum + w (f (m.get? k)) := by
  obtain ⟨l, sorted⟩ := m
  simp only [get?, alter]
  induction l with
  | nil => simp [alterEntries, lookup]
  | cons a l ih =>
      obtain ⟨first, rest⟩ := List.pairwise_cons.mp sorted
      obtain ⟨ka, va⟩ := a
      simp only [alterEntries]
      by_cases lt : k < ka
      · have missing : lookup k ((ka, va) :: l) = none := by
          apply lookup_eq_none
          intro e he
          rcases List.mem_cons.mp he with rfl | later
          · exact ne_of_gt lt
          · exact ne_of_gt (lt.trans (first e later))
        rw [if_pos lt, missing]
        simp only [List.map_cons, List.sum_cons, Option.elim_none]
        omega
      · rw [if_neg lt]
        by_cases same : ka = k
        · rw [if_pos same, lookup, if_pos same]
          simp only [List.map_cons, List.sum_cons, Option.elim_some]
          omega
        · have step := ih rest
          rw [if_neg same, lookup, if_neg same]
          simp only [List.map_cons, List.sum_cons]
          omega

theorem get?_filterMapVal (m : OrderedMap κ ν) (f : κ → ν → Option ν) (k : κ) :
    (m.filterMapVal f).get? k = (m.get? k).bind (f k) := by
  obtain ⟨l, sorted⟩ := m
  simp only [get?, filterMapVal]
  induction l with
  | nil => rfl
  | cons a l ih =>
      obtain ⟨first, rest⟩ := List.pairwise_cons.mp sorted
      obtain ⟨ka, va⟩ := a
      by_cases eq : ka = k
      · subst eq
        cases hf : f ka va with
        | some v => simp [hf, lookup]
        | none =>
            have missing : lookup ka (l.filterMap fun e => (f e.1 e.2).map fun v => (e.1, v)) =
                none := by
              apply lookup_eq_none
              intro e he
              obtain ⟨b, hb, eq⟩ := List.mem_filterMap.mp he
              obtain ⟨v, -, rfl⟩ := Option.map_eq_some_iff.mp eq
              exact ne_of_gt (first b hb)
            simp [hf, lookup, missing]
      · cases hf : f ka va with
        | some v => simpa [hf, lookup, eq] using ih rest
        | none => simpa [hf, lookup, eq] using ih rest

end OrderedMap

end Graphy
