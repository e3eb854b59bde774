import Graphy.Algebra.Rewrite

/-!
# Trees by their sides

Every node of the algebra has at most two inputs.  Passes that treat all nodes alike
are described by what they do to each side.
-/

namespace Graphy.Sparql

namespace Algebra

/-- The first or only input. -/
def leftOf : Algebra → Option Algebra
  | .join l _ => some l
  | .leftJoin left _ _ => some left
  | .union l _ => some l
  | .minus l _ => some l
  | .filter _ input => some input
  | .graph _ input => some input
  | .service _ _ input => some input
  | .extend input _ _ => some input
  | .toMultiSet input => some input
  | .group _ _ input => some input
  | .orderBy input _ => some input
  | .project input _ => some input
  | .distinct input => some input
  | .reduced input => some input
  | .slice input _ _ => some input
  | .bgp _ => none
  | .path _ _ _ => none
  | .table _ _ => none

/-- The second input. -/
def rightOf : Algebra → Option Algebra
  | .join _ r => some r
  | .leftJoin _ right _ => some right
  | .union _ r => some r
  | .minus _ r => some r
  | _ => none

def isFilter : Algebra → Bool
  | .filter _ _ => true
  | _ => false

/-- A node with both inputs replaced. -/
def mapSides (f g : Algebra → Algebra) : Algebra → Algebra
  | .join l r => .join (f l) (g r)
  | .leftJoin left right expr => .leftJoin (f left) (g right) expr
  | .union l r => .union (f l) (g r)
  | .minus l r => .minus (f l) (g r)
  | .filter expr input => .filter expr (f input)
  | .graph name input => .graph name (f input)
  | .service silent target input => .service silent target (f input)
  | .extend input var expr => .extend (f input) var expr
  | .toMultiSet input => .toMultiSet (f input)
  | .group keys aggregates input => .group keys aggregates (f input)
  | .orderBy input conditions => .orderBy (f input) conditions
  | .project input vars => .project (f input) vars
  | .distinct input => .distinct (f input)
  | .reduced input => .reduced (f input)
  | .slice input offset limit => .slice (f input) offset limit
  | .bgp ts => .bgp ts
  | .path s via o => .path s via o
  | .table vars rows => .table vars rows

/-- Induction over trees by their sides. -/
theorem sideInduction {motive : Algebra → Prop}
    (step : ∀ a, (∀ l, leftOf a = some l → motive l) → (∀ r, rightOf a = some r → motive r) →
      motive a) : ∀ a, motive a
  | .join l r => step _ (fun _ h => by cases h; exact sideInduction step l)
      fun _ h => by cases h; exact sideInduction step r
  | .leftJoin l r _ => step _ (fun _ h => by cases h; exact sideInduction step l)
      fun _ h => by cases h; exact sideInduction step r
  | .union l r => step _ (fun _ h => by cases h; exact sideInduction step l)
      fun _ h => by cases h; exact sideInduction step r
  | .minus l r => step _ (fun _ h => by cases h; exact sideInduction step l)
      fun _ h => by cases h; exact sideInduction step r
  | .filter _ i => step _ (fun _ h => by cases h; exact sideInduction step i) fun _ h => by cases h
  | .graph _ i => step _ (fun _ h => by cases h; exact sideInduction step i) fun _ h => by cases h
  | .service _ _ i =>
      step _ (fun _ h => by cases h; exact sideInduction step i) fun _ h => by cases h
  | .extend i _ _ =>
      step _ (fun _ h => by cases h; exact sideInduction step i) fun _ h => by cases h
  | .toMultiSet i =>
      step _ (fun _ h => by cases h; exact sideInduction step i) fun _ h => by cases h
  | .group _ _ i =>
      step _ (fun _ h => by cases h; exact sideInduction step i) fun _ h => by cases h
  | .orderBy i _ =>
      step _ (fun _ h => by cases h; exact sideInduction step i) fun _ h => by cases h
  | .project i _ =>
      step _ (fun _ h => by cases h; exact sideInduction step i) fun _ h => by cases h
  | .distinct i =>
      step _ (fun _ h => by cases h; exact sideInduction step i) fun _ h => by cases h
  | .reduced i =>
      step _ (fun _ h => by cases h; exact sideInduction step i) fun _ h => by cases h
  | .slice i _ _ =>
      step _ (fun _ h => by cases h; exact sideInduction step i) fun _ h => by cases h
  | .bgp _ => step _ (fun _ h => by cases h) fun _ h => by cases h
  | .path _ _ _ => step _ (fun _ h => by cases h) fun _ h => by cases h
  | .table _ _ => step _ (fun _ h => by cases h) fun _ h => by cases h

variable {f g f' g' : Algebra → Algebra} {a : Algebra}

@[simp] theorem leftOf_mapSides : leftOf (mapSides f g a) = (leftOf a).map f := by
  cases a <;> rfl

@[simp] theorem rightOf_mapSides : rightOf (mapSides f g a) = (rightOf a).map g := by
  cases a <;> rfl

@[simp] theorem isFilter_mapSides : isFilter (mapSides f g a) = isFilter a := by
  cases a <;> rfl

@[simp] theorem mapSides_id : mapSides id id a = a := by
  cases a <;> rfl

theorem mapSides_mapSides :
    mapSides f g (mapSides f' g' a) = mapSides (fun x => f (f' x)) (fun x => g (g' x)) a := by
  cases a <;> rfl

theorem mapSides_congr (left : ∀ l, leftOf a = some l → f l = f' l)
    (right : ∀ r, rightOf a = some r → g r = g' r) : mapSides f g a = mapSides f' g' a := by
  cases a <;> simp_all [leftOf, rightOf, mapSides]

/-- Equal images agree on each side. -/
theorem sides_of_mapSides_eq (h : mapSides f g a = mapSides f' g' a) :
    (∀ l, leftOf a = some l → f l = f' l) ∧ (∀ r, rightOf a = some r → g r = g' r) := by
  cases a <;> simp_all [leftOf, rightOf, mapSides]

/-- A tree is a filter or it is not. -/
theorem filter_or (a : Algebra) : (∃ e i, a = .filter e i) ∨ isFilter a = false := by
  cases a <;> simp [isFilter]

end Algebra

open Graphy.Sparql.Algebra

/-! ## Visible variables -/

theorem mem_pushVar {out : List VarId} {v w : VarId} : w ∈ pushVar out v ↔ w ∈ out ∨ w = v := by
  unfold pushVar
  split
  · rename_i inside
    exact ⟨.inl, fun h => h.elim id fun same => same ▸ inside⟩
  · simp

theorem mem_foldl_pushVar {vs out : List VarId} {w : VarId} :
    w ∈ vs.foldl pushVar out ↔ w ∈ out ∨ w ∈ vs := by
  induction vs generalizing out with
  | nil => simp
  | cons v vs ih => rw [List.foldl_cons, ih, mem_pushVar, List.mem_cons, or_assoc]

theorem mem_visibleP {p : P} {out : List VarId} {w : VarId} :
    w ∈ visibleP out p ↔ w ∈ out ∨ w ∈ visibleP [] p := by
  induction p generalizing out with
  | term b => simp [visibleP]
  | var v => simp [visibleP, mem_pushVar]
  | triple s p o ihs ihp iho =>
      simp only [visibleP]
      rw [iho, ihp, ihs, @iho (visibleP _ _), @ihp (visibleP _ _)]
      tauto

/-- The variables of a triple pattern. -/
def TriplePat.binds (t : TriplePat) (w : VarId) : Prop :=
  w ∈ visibleP [] t.s ∨ w ∈ visibleP [] t.p ∨ w ∈ visibleP [] t.o

theorem mem_visibleBgp {ts : List TriplePat} {out : List VarId} {w : VarId} :
    w ∈ visibleFrom out (.bgp ts) ↔ w ∈ out ∨ ∃ t ∈ ts, t.binds w := by
  simp only [visibleFrom]
  induction ts generalizing out with
  | nil => simp
  | cons t ts ih =>
      rw [List.foldl_cons, ih, mem_visibleP, @mem_visibleP t.p, @mem_visibleP t.s]
      simp only [TriplePat.binds, List.mem_cons, exists_eq_or_imp, or_assoc]

theorem mem_visibleFrom {a : Algebra} {out : List VarId} {w : VarId} :
    w ∈ visibleFrom out a ↔ w ∈ out ∨ w ∈ visibleVars a := by
  unfold visibleVars
  induction a using sideInduction generalizing out with
  | step a left right =>
  cases a with
  | bgp ts =>
      rw [mem_visibleBgp, @mem_visibleBgp ts []]
      simp
  | path s via o =>
      simp only [visibleFrom]
      rw [mem_visibleP, @mem_visibleP s, @mem_visibleP o (visibleP [] s)]
      tauto
  | join l r =>
      simp only [visibleFrom]
      rw [right r rfl, left l rfl, @right r rfl (visibleFrom [] l)]
      tauto
  | union l r =>
      simp only [visibleFrom]
      rw [right r rfl, left l rfl, @right r rfl (visibleFrom [] l)]
      tauto
  | leftJoin l r e =>
      simp only [visibleFrom]
      rw [right r rfl, left l rfl, @right r rfl (visibleFrom [] l)]
      tauto
  | graph g i =>
      simp only [visibleFrom]
      rw [left i rfl, mem_visibleP, @left i rfl (visibleP [] g)]
      tauto
  | service s g i =>
      simp only [visibleFrom]
      rw [left i rfl, mem_visibleP, @left i rfl (visibleP [] g)]
      tauto
  | extend i v e =>
      simp only [visibleFrom]
      rw [mem_pushVar, left i rfl, mem_pushVar]
      tauto
  | table vars rows => simp [visibleFrom, mem_foldl_pushVar]
  | project i vars => simp [visibleFrom, mem_foldl_pushVar]
  | group keys aggregates i => simp [visibleFrom, mem_foldl_pushVar, or_assoc]
  | filter e i => exact left i rfl
  | minus l r => exact left l rfl
  | toMultiSet i => exact left i rfl
  | distinct i => exact left i rfl
  | reduced i => exact left i rfl
  | orderBy i conditions => exact left i rfl
  | slice i offset limit => exact left i rfl

/-- The two trees may bind the same variables. -/
def SameVars (a b : Algebra) : Prop := ∀ w, w ∈ visibleVars a ↔ w ∈ visibleVars b

theorem SameVars.refl (a : Algebra) : SameVars a a := fun _ => Iff.rfl

theorem SameVars.trans {a b c : Algebra} (h : SameVars a b) (h' : SameVars b c) : SameVars a c :=
  fun w => (h w).trans (h' w)

theorem SameVars.subset_iff {a b : Algebra} (h : SameVars a b) (cv : List VarId) :
    cv ⊆ visibleVars a ↔ cv ⊆ visibleVars b :=
  forall₂_congr fun w _ => h w

/-- Replacing the sides by ones that bind the same variables changes nothing. -/
theorem sameVars_mapSides {f g : Algebra → Algebra} {a : Algebra}
    (left : ∀ l, leftOf a = some l → SameVars (f l) l)
    (right : ∀ r, rightOf a = some r → SameVars (g r) r) : SameVars (mapSides f g a) a := by
  intro w
  cases a with
  | bgp ts => exact Iff.rfl
  | path s via o => exact Iff.rfl
  | table vars rows => exact Iff.rfl
  | project i vars => exact Iff.rfl
  | group keys aggregates i => exact Iff.rfl
  | filter e i => exact left i rfl w
  | minus l r => exact left l rfl w
  | toMultiSet i => exact left i rfl w
  | distinct i => exact left i rfl w
  | reduced i => exact left i rfl w
  | orderBy i conditions => exact left i rfl w
  | slice i offset limit => exact left i rfl w
  | join l r =>
      have l' := left l rfl w
      have r' := right r rfl w
      simp only [visibleVars, mapSides, visibleFrom] at l' r' ⊢
      rw [mem_visibleFrom, @mem_visibleFrom r]
      exact or_congr l' r'
  | union l r =>
      have l' := left l rfl w
      have r' := right r rfl w
      simp only [visibleVars, mapSides, visibleFrom] at l' r' ⊢
      rw [mem_visibleFrom, @mem_visibleFrom r]
      exact or_congr l' r'
  | leftJoin l r e =>
      have l' := left l rfl w
      have r' := right r rfl w
      simp only [visibleVars, mapSides, visibleFrom] at l' r' ⊢
      rw [mem_visibleFrom, @mem_visibleFrom r]
      exact or_congr l' r'
  | graph g i =>
      simp only [visibleVars, mapSides, visibleFrom]
      rw [mem_visibleFrom, @mem_visibleFrom i]
      exact or_congr Iff.rfl (left i rfl w)
  | service s g i =>
      simp only [visibleVars, mapSides, visibleFrom]
      rw [mem_visibleFrom, @mem_visibleFrom i]
      exact or_congr Iff.rfl (left i rfl w)
  | extend i v e =>
      simp only [visibleVars, mapSides, visibleFrom]
      rw [mem_pushVar, mem_pushVar]
      exact or_congr (left i rfl w) Iff.rfl

end Graphy.Sparql
