import Graphy.Algebra.Proofs.Sink
import Mathlib.Data.List.Sort

/-!
# Canonical order

Sorting the patterns of basic graph patterns neither moves a filter nor hides a
variable, so it commutes with sinking, and sorting again changes nothing.
-/

namespace Graphy.Sparql

open Graphy.Sparql.Algebra

/-! ## The order of patterns -/

/-- Three comparisons fit together. -/
structure Chain (ab bc ac : Ordering) : Prop where
  left : ab = .eq → ac = bc
  right : bc = .eq → ac = ab
  lt : ab = .lt → bc = .lt → ac = .lt

theorem Chain.then {ab bc ac ab' bc' ac' : Ordering} (h : Chain ab bc ac) (h' : Chain ab' bc' ac') :
    Chain (ab.then ab') (bc.then bc') (ac.then ac') := by
  obtain ⟨l, r, lt⟩ := h
  cases ab with
  | eq =>
      rw [l rfl]
      cases bc with
      | eq => exact h'
      | lt => exact ⟨fun _ => rfl, by simp, fun _ _ => rfl⟩
      | gt => exact ⟨fun _ => rfl, by simp, by simp⟩
  | lt =>
      cases bc with
      | eq =>
          rw [r rfl]
          exact ⟨by simp, fun _ => rfl, fun _ _ => rfl⟩
      | lt =>
          rw [lt rfl rfl]
          exact ⟨by simp, by simp, fun _ _ => rfl⟩
      | gt => exact ⟨by simp, by simp, by simp⟩
  | gt =>
      cases bc with
      | eq =>
          rw [r rfl]
          exact ⟨by simp, fun _ => rfl, by simp⟩
      | lt => exact ⟨by simp, by simp, by simp⟩
      | gt => exact ⟨by simp, by simp, by simp⟩

theorem chain_compare {α : Type} [Ord α] [Std.TransOrd α] [Std.LawfulEqOrd α] (a b c : α) :
    Chain (compare a b) (compare b c) (compare a c) where
  left h := by rw [Std.LawfulEqOrd.eq_of_compare h]
  right h := by rw [Std.LawfulEqOrd.eq_of_compare h]
  lt h h' := Std.TransCmp.lt_trans h h'

theorem P.chain_cmp (a b c : P) : Chain (P.cmp a b) (P.cmp b c) (P.cmp a c) := by
  induction a generalizing b c with
  | term x =>
      cases b with
      | term y =>
          cases c with
          | term z => exact chain_compare x y z
          | var w => exact ⟨fun _ => rfl, by simp [P.cmp], fun _ _ => rfl⟩
          | triple s p o => exact ⟨fun _ => rfl, by simp [P.cmp], fun _ _ => rfl⟩
      | var v => cases c <;> exact ⟨by simp [P.cmp], by simp [P.cmp], by simp [P.cmp]⟩
      | triple s p o => cases c <;> exact ⟨by simp [P.cmp], by simp [P.cmp], by simp [P.cmp]⟩
  | var v =>
      cases b with
      | term y => cases c <;> exact ⟨by simp [P.cmp], by simp [P.cmp], by simp [P.cmp]⟩
      | var w =>
          cases c with
          | term z => exact ⟨fun _ => rfl, by simp [P.cmp], by simp [P.cmp]⟩
          | var u => exact chain_compare v.index w.index u.index
          | triple s p o => exact ⟨fun _ => rfl, by simp [P.cmp], fun _ _ => rfl⟩
      | triple s p o => cases c <;> exact ⟨by simp [P.cmp], by simp [P.cmp], by simp [P.cmp]⟩
  | triple s p o ihs ihp iho =>
      cases b with
      | term y => cases c <;> exact ⟨by simp [P.cmp], by simp [P.cmp], by simp [P.cmp]⟩
      | var w => cases c <;> exact ⟨by simp [P.cmp], by simp [P.cmp], by simp [P.cmp]⟩
      | triple s' p' o' =>
          cases c with
          | term z => exact ⟨fun _ => rfl, by simp [P.cmp], by simp [P.cmp]⟩
          | var u => exact ⟨fun _ => rfl, by simp [P.cmp], by simp [P.cmp]⟩
          | triple s'' p'' o'' =>
              exact ((ihs s' s'').then (ihp p' p'')).then (iho o' o'')

theorem P.cmp_swap (a b : P) : (P.cmp a b).swap = P.cmp b a := by
  induction a generalizing b with
  | term x =>
      cases b with
      | term y => exact Std.OrientedOrd.eq_swap.symm
      | var w => rfl
      | triple s p o => rfl
  | var v =>
      cases b with
      | term y => rfl
      | var w => exact Std.OrientedOrd.eq_swap.symm
      | triple s p o => rfl
  | triple s p o ihs ihp iho =>
      cases b with
      | term y => rfl
      | var w => rfl
      | triple s' p' o' => simp only [P.cmp, Ordering.swap_then, ihs, ihp, iho]

theorem TriplePat.chain_cmp (a b c : TriplePat) :
    Chain (TriplePat.cmp a b) (TriplePat.cmp b c) (TriplePat.cmp a c) :=
  ((P.chain_cmp a.s b.s c.s).then (P.chain_cmp a.p b.p c.p)).then (P.chain_cmp a.o b.o c.o)

theorem TriplePat.cmp_swap (a b : TriplePat) : (TriplePat.cmp a b).swap = TriplePat.cmp b a := by
  simp only [TriplePat.cmp, Ordering.swap_then, P.cmp_swap]

/-- Patterns once sorted stay as they are. -/
theorem sortPatterns_idem (ts : List TriplePat) :
    sortPatterns (sortPatterns ts) = sortPatterns ts := by
  refine List.mergeSort_of_pairwise (List.pairwise_mergeSort ?_ ?_ ts)
  · intro a b c hab hbc
    obtain ⟨l, r, lt⟩ := TriplePat.chain_cmp a b c
    cases ab : TriplePat.cmp a b with
    | eq => rwa [l ab]
    | gt =>
        rw [ab] at hab
        cases hab
    | lt =>
        cases bc : TriplePat.cmp b c with
        | eq => rwa [r bc]
        | lt => rw [lt ab bc, Ordering.isLE_lt]
        | gt =>
            rw [bc] at hbc
            cases hbc
  · intro a b
    rw [← TriplePat.cmp_swap a b]
    cases TriplePat.cmp a b <;> rfl

theorem mem_sortPatterns {ts : List TriplePat} {t : TriplePat} : t ∈ sortPatterns ts ↔ t ∈ ts :=
  List.mem_mergeSort

/-! ## The tree -/

theorem canonicalize_sides {node : Algebra} {l : Algebra} (inner : leftOf node = some l) :
    canonicalize node = mapSides canonicalize canonicalize node := by
  cases node <;> first | rfl | cases inner

@[simp] theorem isFilter_canonicalize (tree : Algebra) :
    isFilter (canonicalize tree) = isFilter tree := by
  cases tree <;> rfl

@[simp] theorem leftOf_canonicalize (tree : Algebra) :
    leftOf (canonicalize tree) = (leftOf tree).map canonicalize := by
  cases tree <;> rfl

@[simp] theorem rightOf_canonicalize (tree : Algebra) :
    rightOf (canonicalize tree) = (rightOf tree).map canonicalize := by
  cases tree <;> rfl

theorem canonicalize_idem (tree : Algebra) :
    canonicalize (canonicalize tree) = canonicalize tree := by
  induction tree using sideInduction with
  | step tree left right =>
  cases inner : leftOf tree with
  | none =>
      cases tree with
      | bgp ts => exact congrArg Algebra.bgp (sortPatterns_idem ts)
      | path s via o => rfl
      | table vars rows => rfl
      | _ => cases inner
  | some l =>
      have inner' : leftOf (canonicalize tree) = some (canonicalize l) := by simp [inner]
      rw [canonicalize_sides inner', canonicalize_sides inner, mapSides_mapSides]
      exact mapSides_congr left right

theorem sameVars_canonicalize (tree : Algebra) : SameVars (canonicalize tree) tree := by
  induction tree using sideInduction with
  | step tree left right =>
  cases inner : leftOf tree with
  | none =>
      cases tree with
      | bgp ts =>
          intro w
          simp only [visibleVars, canonicalize, mem_visibleBgp, mem_sortPatterns]
      | path s via o => exact .refl _
      | table vars rows => exact .refl _
      | _ => cases inner
  | some l =>
      rw [canonicalize_sides inner]
      exact sameVars_mapSides left right

/-- Sorting changes nothing about which nodes a conjunct enters. -/
theorem enters_canonicalize (tree : Algebra) (c : Expr) :
    intoLeft c (canonicalize tree) = intoLeft c tree ∧
      intoRight c (canonicalize tree) = intoRight c tree := by
  cases inner : leftOf tree with
  | none => cases tree <;> first | exact ⟨rfl, rfl⟩ | cases inner
  | some l =>
      rw [canonicalize_sides inner]
      exact ⟨intoLeft_mapSides (fun l _ => sameVars_canonicalize l) c,
        intoRight_mapSides (fun l _ => sameVars_canonicalize l)
          (fun r _ => sameVars_canonicalize r) c⟩

/-- Sorting commutes with what happens at the sides. -/
theorem canonicalize_mapSides {f g : Algebra → Algebra} {node : Algebra}
    (left : ∀ l, leftOf node = some l → canonicalize (f l) = f (canonicalize l))
    (right : ∀ r, rightOf node = some r → canonicalize (g r) = g (canonicalize r)) :
    canonicalize (mapSides f g node) = mapSides f g (canonicalize node) := by
  cases inner : leftOf node with
  | none => cases node <;> first | rfl | cases inner
  | some l =>
      have inner' : leftOf (mapSides f g node) = some (f l) := by simp [inner]
      rw [canonicalize_sides inner, canonicalize_sides inner', mapSides_mapSides, mapSides_mapSides]
      exact mapSides_congr left right

theorem canonicalize_drop (c : Expr) (tree : Algebra) :
    canonicalize (drop c tree) = drop c (canonicalize tree) := by
  induction tree using sideInduction with
  | step tree left right =>
  obtain ⟨intoL, intoR⟩ := enters_canonicalize tree c
  have same : enters c (canonicalize tree) = enters c tree := by
    unfold enters
    rw [intoL, intoR]
  cases entered : enters c tree with
  | false =>
      rw [drop_of_not_enters entered, drop_of_not_enters (same.trans entered)]
      rfl
  | true =>
      rw [drop_of_enters entered, drop_of_enters (same.trans entered), intoL, intoR]
      refine canonicalize_mapSides (fun l side => ?_) fun r side => ?_
      · split
        · exact left l side
        · rfl
      · split
        · exact right r side
        · rfl

theorem canonicalize_arrive (cs : List Expr) (tree : Algebra) :
    canonicalize (arrive cs tree) = arrive cs (canonicalize tree) := by
  induction cs generalizing tree with
  | nil => rfl
  | cons c cs ih =>
      change canonicalize (arrive cs (drop c tree)) = arrive cs (drop c (canonicalize tree))
      rw [ih, canonicalize_drop]

theorem canonicalize_wrapAll (cs : List Expr) (tree : Algebra) :
    canonicalize (wrapAll cs tree) = wrapAll cs (canonicalize tree) := by
  induction cs with
  | nil => rfl
  | cons c cs ih => exact congrArg (Algebra.filter c) ih

theorem canonicalize_absorb (cs : List Expr) (node : Algebra) :
    canonicalize (absorb cs node) = absorb cs (canonicalize node) := by
  have left : leftward cs (canonicalize node) = leftward cs node :=
    List.filter_congr fun c _ => (enters_canonicalize node c).1
  have right : rightward cs (canonicalize node) = rightward cs node :=
    List.filter_congr fun c _ => (enters_canonicalize node c).2
  unfold absorb
  rw [left, right]
  exact canonicalize_mapSides (fun l _ => canonicalize_arrive _ l)
    fun r _ => canonicalize_arrive _ r

theorem canonicalize_pushFiltersUnder (cs : List Expr) (tree : Algebra) :
    canonicalize (pushFiltersUnder cs tree) = pushFiltersUnder cs (canonicalize tree) := by
  induction tree using sideInduction generalizing cs with
  | step tree left right =>
  rcases filter_or tree with ⟨e, i, rfl⟩ | plain
  · exact left i rfl _
  · have stay : staying cs (canonicalize tree) = staying cs tree :=
      List.filter_congr fun c _ => by
        unfold enters
        rw [(enters_canonicalize tree c).1, (enters_canonicalize tree c).2]
    have sides : canonicalize (pushSides tree) = pushSides (canonicalize tree) :=
      canonicalize_mapSides (fun l side => left l side []) fun r side => right r side []
    rw [pushFiltersUnder_eq plain, pushFiltersUnder_eq ((isFilter_canonicalize tree).trans plain),
      canonicalize_wrapAll, canonicalize_absorb, sides, stay]

/-- Sorting leaves filters at rest, and no others. -/
theorem rested_canonicalize {cs : List Expr} {tree : Algebra} :
    Rested cs (canonicalize tree) ↔ Rested cs tree := by
  induction tree using sideInduction generalizing cs with
  | step tree left right =>
  rcases filter_or tree with ⟨e, i, rfl⟩ | plain
  · constructor
    · intro h
      cases h with
      | filter unsplit input => exact .filter unsplit ((left i rfl).mp input)
      | node plain => cases plain
    · intro h
      cases h with
      | filter unsplit input => exact .filter unsplit ((left i rfl).mpr input)
      | node plain => cases plain
  · have same (c : Expr) : enters c (canonicalize tree) = enters c tree := by
      unfold enters
      rw [(enters_canonicalize tree c).1, (enters_canonicalize tree c).2]
    rw [rested_node plain, rested_node ((isFilter_canonicalize tree).trans plain)]
    simp only [same, leftOf_canonicalize, rightOf_canonicalize, Option.map_eq_some_iff,
      forall_exists_index, and_imp, forall_apply_eq_imp_iff₂]
    exact and_congr_right fun _ => and_congr (forall₂_congr fun l side => left l side)
      (forall₂_congr fun r side => right r side)

end Graphy.Sparql
