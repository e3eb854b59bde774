import Mathlib.Data.Set.Basic
import Mathlib.Data.List.Induction

/-!
# Batches of set updates

A batch deletes some elements of a set and then adds some.  What a sequence of
batches leaves of one element depends only on the last batch that names it, so
applying a sequence again after part of it changes nothing.
-/

namespace Graphy

/-- Deletes, then adds. -/
structure Update (α : Type*) where
  dels : List α
  adds : List α

namespace Update

variable {α : Type*}

def apply (u : Update α) (d : Set α) : Set α := {x | (x ∈ d ∧ x ∉ u.dels) ∨ x ∈ u.adds}

/-- Whether the batch leaves the set as it is: it deletes what is absent and adds
what is present. -/
def Idle (u : Update α) (d : Set α) : Prop := (∀ x ∈ u.dels, x ∉ d) ∧ ∀ x ∈ u.adds, x ∈ d

/-- The batch over what each element stands for. -/
def map {β : Type*} (f : α → β) (u : Update α) : Update β := ⟨u.dels.map f, u.adds.map f⟩

theorem map_eq_self {f : α → α} {u : Update α} (h : ∀ x ∈ u.dels ++ u.adds, f x = x) :
    u.map f = u := by
  have dels := List.map_congr_left (g := id) fun x hx => h x (List.mem_append_left _ hx)
  have adds := List.map_congr_left (g := id) fun x hx => h x (List.mem_append_right _ hx)
  rw [map, dels, adds, List.map_id, List.map_id]

theorem mem_apply {u : Update α} {d : Set α} {x : α} :
    x ∈ u.apply d ↔ (x ∈ d ∧ x ∉ u.dels) ∨ x ∈ u.adds := Iff.rfl

theorem Idle.apply {u : Update α} {d : Set α} (idle : u.Idle d) : u.apply d = d := by
  ext x
  rw [mem_apply]
  constructor
  · rintro (⟨h, -⟩ | h)
    · exact h
    · exact idle.2 x h
  · intro h
    exact Or.inl ⟨h, fun del => idle.1 x del h⟩

/-- Batches one after another. -/
def applyAll (us : List (Update α)) (d : Set α) : Set α := us.foldl (fun d u => u.apply d) d

@[simp] theorem applyAll_nil (d : Set α) : applyAll [] d = d := rfl

@[simp] theorem applyAll_cons (u : Update α) (us : List (Update α)) (d : Set α) :
    applyAll (u :: us) d = applyAll us (u.apply d) := rfl

theorem applyAll_append (us vs : List (Update α)) (d : Set α) :
    applyAll (us ++ vs) d = applyAll vs (applyAll us d) := List.foldl_append

theorem applyAll_concat (us : List (Update α)) (u : Update α) (d : Set α) :
    applyAll (us ++ [u]) d = u.apply (applyAll us d) := applyAll_append us [u] d

section LastWrite

variable [DecidableEq α]

/-- Whether the batch writes the element, and whether it leaves it in. -/
def write (u : Update α) (x : α) : Option Bool :=
  if x ∈ u.adds then some true else if x ∈ u.dels then some false else none

theorem isSome_write {u : Update α} {x : α} :
    (u.write x).isSome = true ↔ x ∈ u.adds ∨ x ∈ u.dels := by
  by_cases add : x ∈ u.adds
  · simp [write, add]
  · by_cases del : x ∈ u.dels <;> simp [write, add, del]

/-- The last write to the element in a sequence of batches. -/
def lastWrite (us : List (Update α)) (x : α) : Option Bool :=
  us.foldl (fun w u => (u.write x).or w) none

theorem lastWrite_append (us vs : List (Update α)) (x : α) :
    lastWrite (us ++ vs) x = (lastWrite vs x).or (lastWrite us x) := by
  induction vs using List.reverseRecOn with
  | nil => simp [lastWrite]
  | append_singleton vs v ih =>
      rw [← List.append_assoc]
      simp only [lastWrite, List.foldl_append, List.foldl_cons, List.foldl_nil] at ih ⊢
      rw [ih, Option.or_assoc]

theorem lastWrite_singleton (u : Update α) (x : α) : lastWrite [u] x = u.write x := by
  simp [lastWrite]

theorem lastWrite_cons (u : Update α) (us : List (Update α)) (x : α) :
    lastWrite (u :: us) x = (lastWrite us x).or (u.write x) := by
  rw [← List.singleton_append, lastWrite_append, lastWrite_singleton]

theorem mem_apply_iff_write {u : Update α} {d : Set α} {x : α} :
    x ∈ u.apply d ↔ ((u.write x).elim (x ∈ d) fun b => b = true) := by
  by_cases add : x ∈ u.adds
  · simp [mem_apply, write, add]
  · by_cases del : x ∈ u.dels
    · simp [mem_apply, write, add, del]
    · simp [mem_apply, write, add, del]

/-- Membership after a sequence of batches is decided by the last write. -/
theorem mem_applyAll {us : List (Update α)} {d : Set α} {x : α} :
    x ∈ applyAll us d ↔ ((lastWrite us x).elim (x ∈ d) fun b => b = true) := by
  induction us using List.reverseRecOn with
  | nil => simp [lastWrite]
  | append_singleton us u ih =>
      rw [applyAll_concat, mem_apply_iff_write, lastWrite_append, lastWrite_singleton]
      cases u.write x with
      | none => simpa using ih
      | some b => simp

end LastWrite

end Update

end Graphy
