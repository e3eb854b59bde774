import Mathlib.Data.List.Sort
import Mathlib.Data.Prod.Lex

/-!
# Heaps that give their least item

A heap holds its items in ascending order, which is all that pushing and popping can tell of one.
-/

namespace Graphy

/-- A heap whose pop takes a least item. -/
structure MinHeap (α : Type) [LinearOrder α] where
  items : List α
  ascending : items.Pairwise (· ≤ ·)

namespace MinHeap

variable {α : Type} [LinearOrder α]

def empty : MinHeap α := ⟨[], List.Pairwise.nil⟩

def push (heap : MinHeap α) (x : α) : MinHeap α :=
  ⟨heap.items.orderedInsert (· ≤ ·) x, heap.ascending.orderedInsert x heap.items⟩

def pop (heap : MinHeap α) : Option (α × MinHeap α) :=
  match heap with
  | ⟨[], _⟩ => none
  | ⟨x :: items, ascending⟩ => some (x, ⟨items, ascending.of_cons⟩)

@[simp] theorem items_empty : (empty : MinHeap α).items = [] := rfl

theorem push_perm (heap : MinHeap α) (x : α) : (heap.push x).items.Perm (x :: heap.items) :=
  heap.items.perm_orderedInsert (· ≤ ·) x

@[simp] theorem mem_push {heap : MinHeap α} {x y : α} :
    y ∈ (heap.push x).items ↔ y = x ∨ y ∈ heap.items := by
  rw [(heap.push_perm x).mem_iff, List.mem_cons]

theorem pop_none {heap : MinHeap α} (bare : heap.items = []) : heap.pop = none := by
  obtain ⟨items, ascending⟩ := heap
  cases bare
  rfl

/-- What is popped is at most what is left. -/
theorem pop_some {heap : MinHeap α} {x : α} {items : List α} (first : heap.items = x :: items) :
    ∃ rest : MinHeap α, heap.pop = some (x, rest) ∧ rest.items = items ∧ ∀ y ∈ items, x ≤ y := by
  obtain ⟨_, ascending⟩ := heap
  cases first
  exact ⟨⟨items, ascending.of_cons⟩, rfl, rfl,
    fun y member => List.rel_of_pairwise_cons ascending member⟩

end MinHeap

end Graphy
