import Graphy.Algebra.Proofs.Canonical

/-!
# Simplified trees

What simplification leaves is simplified: no constant decides a condition and no
input is trivial.  Sinking filters and sorting patterns keep it so, hence a second
simplification finds nothing to do.
-/

namespace Graphy.Sparql

open Graphy.Sparql.Algebra

/-! ## Full trees -/

/-- The first tree is empty, or the unit table, only where the second is. -/
structure AsFull (b a : Algebra) : Prop where
  empty : isEmpty a = false → isEmpty b = false
  unit : isUnit a = false → isUnit b = false

theorem AsFull.refl (a : Algebra) : AsFull a a := ⟨id, id⟩

theorem AsFull.trans {a b c : Algebra} (h : AsFull c b) (h' : AsFull b a) : AsFull c a :=
  ⟨fun full => h.empty (h'.empty full), fun full => h.unit (h'.unit full)⟩

theorem asFull_filter (e : Expr) (i a : Algebra) : AsFull (.filter e i) a :=
  ⟨fun _ => rfl, fun _ => rfl⟩

@[simp] theorem isEmpty_mapSides {f g : Algebra → Algebra} {node : Algebra} :
    isEmpty (mapSides f g node) = isEmpty node := by
  cases node <;> rfl

@[simp] theorem isUnit_mapSides {f g : Algebra → Algebra} {node : Algebra} :
    isUnit (mapSides f g node) = isUnit node := by
  cases node <;> rfl

theorem asFull_mapSides {f g : Algebra → Algebra} {node : Algebra} :
    AsFull (mapSides f g node) node :=
  ⟨fun full => by rw [isEmpty_mapSides, full], fun full => by rw [isUnit_mapSides, full]⟩

theorem asFull_drop (c : Expr) (tree : Algebra) : AsFull (drop c tree) tree := by
  cases entered : enters c tree with
  | true =>
      rw [drop_of_enters entered]
      exact asFull_mapSides
  | false =>
      rw [drop_of_not_enters entered]
      exact asFull_filter c tree tree

theorem asFull_arrive (cs : List Expr) (tree : Algebra) : AsFull (arrive cs tree) tree := by
  induction cs generalizing tree with
  | nil => exact .refl tree
  | cons c cs ih => exact (ih (drop c tree)).trans (asFull_drop c tree)

theorem asFull_wrapAll (ks : List Expr) (node : Algebra) : AsFull (wrapAll ks node) node := by
  cases ks with
  | nil => exact .refl node
  | cons k ks => exact asFull_filter k _ node

theorem splitAnd_ne_nil (e : Expr) : splitAnd e ≠ [] := by
  cases e <;> simp [splitAnd, splitAnd_ne_nil]

theorem not_enters_leaf {node : Algebra} (leaf : leftOf node = none) (c : Expr) :
    enters c node = false := by
  unfold enters intoLeft intoRight
  cases pushableVars c with
  | none => rfl
  | some cv => cases node <;> first | rfl | cases leaf

/-- A filter is left above a leaf, so nothing that had filters becomes empty or the unit table. -/
theorem full_pushFiltersUnder {cs : List Expr} (some_ : cs ≠ []) (tree : Algebra) :
    isEmpty (pushFiltersUnder cs tree) = false ∧ isUnit (pushFiltersUnder cs tree) = false := by
  induction tree using sideInduction generalizing cs with
  | step tree left right =>
  rcases filter_or tree with ⟨e, i, rfl⟩ | plain
  · exact left i rfl (by simp [some_])
  · rw [pushFiltersUnder_eq plain]
    cases inner : leftOf tree with
    | none =>
        obtain ⟨c, cs, rfl⟩ := List.exists_cons_of_ne_nil some_
        have stay : staying (c :: cs) tree = c :: cs :=
          List.filter_eq_self.mpr fun d _ => by rw [not_enters_leaf inner]; rfl
        rw [stay]
        exact ⟨rfl, rfl⟩
    | some l =>
        have full : isEmpty tree = false ∧ isUnit tree = false := by
          cases tree <;> first | exact ⟨rfl, rfl⟩ | cases inner
        have same := (asFull_wrapAll (staying cs tree) (absorb cs (pushSides tree))).trans
          (asFull_mapSides.trans asFull_mapSides)
        exact ⟨same.empty full.1, same.unit full.2⟩

theorem asFull_pushFiltersUnder (cs : List Expr) (tree : Algebra) :
    AsFull (pushFiltersUnder cs tree) tree := by
  rcases filter_or tree with ⟨e, i, rfl⟩ | plain
  · have some_ : cs ++ splitAnd e ≠ [] := by simp [splitAnd_ne_nil]
    exact ⟨fun _ => (full_pushFiltersUnder some_ i).1, fun _ => (full_pushFiltersUnder some_ i).2⟩
  · rw [pushFiltersUnder_eq plain]
    exact (asFull_wrapAll _ _).trans (asFull_mapSides.trans asFull_mapSides)

theorem asFull_canonicalize (tree : Algebra) : AsFull (canonicalize tree) tree := by
  cases inner : leftOf tree with
  | some l =>
      rw [canonicalize_sides inner]
      exact asFull_mapSides
  | none =>
      cases tree with
      | bgp ts =>
          refine ⟨fun _ => rfl, fun some_ => ?_⟩
          simp only [isUnit, canonicalize] at some_ ⊢
          rw [List.isEmpty_eq_false_iff, ← List.length_pos_iff] at some_ ⊢
          rwa [sortPatterns, List.length_mergeSort]
      | path s via o => exact .refl _
      | table vars rows => exact .refl _
      | _ => cases inner

/-! ## Folded expressions -/

theorem fold_boolExpr (v : Bool) : fold (boolExpr v) = boolExpr v := by
  simp only [boolExpr, fold]

theorem fold_foldAnd {a b : Expr} (ha : fold a = a) (hb : fold b = b) :
    fold (foldAnd a b) = foldAnd a b := by
  unfold foldAnd
  split
  · exact fold_boolExpr false
  · exact fold_boolExpr false
  · exact hb
  · exact ha
  · rename_i h1 h2 h3 h4
    rw [fold, ha, hb]
    unfold foldAnd
    split <;> simp_all

theorem fold_foldOr {a b : Expr} (ha : fold a = a) (hb : fold b = b) :
    fold (foldOr a b) = foldOr a b := by
  unfold foldOr
  split
  · exact fold_boolExpr true
  · exact fold_boolExpr true
  · exact hb
  · exact ha
  · rename_i h1 h2 h3 h4
    rw [fold, ha, hb]
    unfold foldOr
    split <;> simp_all

theorem fold_foldNot {a : Expr} (ha : fold a = a) : fold (foldNot a) = foldNot a := by
  unfold foldNot
  split
  · exact fold_boolExpr _
  · rename_i unknown
    rw [fold, ha]
    unfold foldNot
    rw [unknown]

theorem fold_foldCmp (op : CmpOp) {a b : Expr} (ha : fold a = a) (hb : fold b = b) :
    fold (foldCmp op a b) = foldCmp op a b := by
  unfold foldCmp
  split
  · exact fold_boolExpr _
  · rename_i unknown
    rw [fold, ha, hb]
    unfold foldCmp
    split
    · rename_i x y hx hy
      exact (unknown x y hx hy).elim
    · rfl

theorem fold_foldArith (op : Int → Int → Int) {ctor : Expr → Expr → Expr}
    (step : ∀ a b, fold (ctor a b) = foldArith op ctor (fold a) (fold b)) {a b : Expr}
    (ha : fold a = a) (hb : fold b = b) : fold (foldArith op ctor a b) = foldArith op ctor a b := by
  have again : fold (ctor a b) = foldArith op ctor a b := by rw [step, ha, hb]
  obtain ⟨r, result⟩ : ∃ r, foldArith op ctor a b = r := ⟨_, rfl⟩
  rw [result] at again ⊢
  unfold foldArith at result
  split at result
  · rename_i x y hx hy
    cases fits : checked64 (op x y) with
    | some v =>
        rw [fits] at result
        rw [← result]
        simp only [Option.map_some, Option.getD_some, intExpr, fold]
    | none =>
        rw [fits] at result
        rw [← result] at again ⊢
        exact again
  · rw [← result] at again ⊢
    exact again

theorem fold_foldMinus {a : Expr} (ha : fold a = a) : fold (foldMinus a) = foldMinus a := by
  unfold foldMinus
  split
  · simp only [intExpr, fold]
  · rename_i unknown
    rw [fold, ha]
    unfold foldMinus
    rw [unknown]

theorem fold_foldPlus {a : Expr} (ha : fold a = a) : fold (foldPlus a) = foldPlus a := by
  unfold foldPlus
  split
  · exact ha
  · rename_i unknown
    rw [fold, ha]
    unfold foldPlus
    rw [unknown]

mutual

/-- Folding once is enough. -/
theorem fold_fold : ∀ e : Expr, fold (fold e) = fold e
  | .and a b => by
      rw [fold]
      exact fold_foldAnd (fold_fold a) (fold_fold b)
  | .or a b => by
      rw [fold]
      exact fold_foldOr (fold_fold a) (fold_fold b)
  | .not a => by
      rw [fold]
      exact fold_foldNot (fold_fold a)
  | .cmp op a b => by
      rw [fold]
      exact fold_foldCmp op (fold_fold a) (fold_fold b)
  | .add a b => by
      rw [fold]
      exact fold_foldArith _ (fun a b => by rw [fold]) (fold_fold a) (fold_fold b)
  | .sub a b => by
      rw [fold]
      exact fold_foldArith _ (fun a b => by rw [fold]) (fold_fold a) (fold_fold b)
  | .mul a b => by
      rw [fold]
      exact fold_foldArith _ (fun a b => by rw [fold]) (fold_fold a) (fold_fold b)
  | .div a b => by simp only [fold, fold_fold a, fold_fold b]
  | .unaryMinus a => by
      rw [fold]
      exact fold_foldMinus (fold_fold a)
  | .unaryPlus a => by
      rw [fold]
      exact fold_foldPlus (fold_fold a)
  | .in_ e list negated => by simp only [fold, fold_fold e, foldAll_foldAll list]
  | .builtin b args => by simp only [fold, foldAll_foldAll args]
  | .function iri args once => by simp only [fold, foldAll_foldAll args]
  | .tripleTerm s p o => by simp only [fold, fold_fold s, fold_fold p, fold_fold o]
  | .term bytes => by simp only [fold]
  | .var v => by simp only [fold]
  | .exists_ negated pattern => by simp only [fold]

theorem foldAll_foldAll : ∀ es : List Expr, foldAll (foldAll es) = foldAll es
  | [] => rfl
  | e :: es => by simp only [foldAll, fold_fold e, foldAll_foldAll es]

end

/-- A condition that folds to itself and that no constant decides. -/
structure Settled (e : Expr) : Prop where
  folded : fold e = e
  open_ : ebvConst e = none

theorem settled_of_foldAnd {a b x y : Expr} (ha : fold a = a) (hb : fold b = b)
    (whenA : a = .and x y → Settled x ∧ Settled y) (whenB : b = .and x y → Settled x ∧ Settled y)
    (same : foldAnd a b = .and x y) : Settled x ∧ Settled y := by
  unfold foldAnd at same
  split at same
  · cases same
  · cases same
  · exact whenB same
  · exact whenA same
  · rename_i h1 h2 h3 h4
    obtain ⟨rfl, rfl⟩ := Expression.and.inj same
    refine ⟨⟨ha, ?_⟩, hb, ?_⟩
    · cases value : ebvConst a with
      | none => rfl
      | some v => cases v <;> simp_all
    · cases value : ebvConst b with
      | none => rfl
      | some v => cases v <;> simp_all

/-- The parts of a folded conjunction. -/
theorem settled_of_fold : ∀ {e x y : Expr}, fold e = .and x y → Settled x ∧ Settled y
  | .and a b, x, y, h => by
      rw [fold] at h
      exact settled_of_foldAnd (fold_fold a) (fold_fold b) settled_of_fold settled_of_fold h
  | .or a b, x, y, h => by
      rw [fold] at h
      unfold foldOr at h
      split at h
      · cases h
      · cases h
      · exact settled_of_fold h
      · exact settled_of_fold h
      · cases h
  | .not a, x, y, h => by
      rw [fold] at h
      unfold foldNot at h
      split at h <;> cases h
  | .cmp op a b, x, y, h => by
      rw [fold] at h
      unfold foldCmp at h
      split at h <;> cases h
  | .add a b, x, y, h => by
      rw [fold] at h
      exact (and_ne_foldArith (by simp) h).elim
  | .sub a b, x, y, h => by
      rw [fold] at h
      exact (and_ne_foldArith (by simp) h).elim
  | .mul a b, x, y, h => by
      rw [fold] at h
      exact (and_ne_foldArith (by simp) h).elim
  | .div a b, x, y, h => by simp [fold] at h
  | .unaryMinus a, x, y, h => by
      rw [fold] at h
      unfold foldMinus at h
      split at h <;> cases h
  | .unaryPlus a, x, y, h => by
      rw [fold] at h
      unfold foldPlus at h
      split at h
      · exact settled_of_fold h
      · cases h
  | .in_ e list negated, x, y, h => by simp [fold] at h
  | .builtin b args, x, y, h => by simp [fold] at h
  | .function iri args once, x, y, h => by simp [fold] at h
  | .tripleTerm s p o, x, y, h => by simp [fold] at h
  | .term bytes, x, y, h => by simp [fold] at h
  | .var v, x, y, h => by simp [fold] at h
  | .exists_ negated pattern, x, y, h => by simp [fold] at h
where
  and_ne_foldArith {op : Int → Int → Int} {ctor : Expr → Expr → Expr} {a b x y : Expr}
      (other : ctor a b ≠ .and x y) (h : foldArith op ctor a b = .and x y) : False := by
    unfold foldArith at h
    split at h
    · cases fits : checked64 (op _ _) with
      | some v =>
          rw [fits] at h
          cases h
      | none =>
          rw [fits] at h
          exact other h
    · exact other h

/-- The conjuncts of a settled condition are settled. -/
theorem settled_of_mem {e : Expr} (h : Settled e) : ∀ c ∈ splitAnd e, Settled c := by
  induction e using splitAnd.induct with
  | case1 a b iha ihb =>
      obtain ⟨x, y⟩ := settled_of_fold h.folded
      intro c mem
      rw [splitAnd, List.mem_append] at mem
      exact mem.elim (iha x c) (ihb y c)
  | case2 e other =>
      have whole : splitAnd e = [e] := by
        cases e with
        | and a b => exact (other a b rfl).elim
        | _ => rfl
      intro c mem
      rw [whole, List.mem_singleton] at mem
      rw [mem]
      exact h

/-! ## Tidy nodes -/

/-- Simplification at this node alone finds nothing to do. -/
def Tidy : Algebra → Prop
  | .join l r => isEmpty l = false ∧ isEmpty r = false ∧ isUnit l = false ∧ isUnit r = false
  | .leftJoin left right expr =>
      isEmpty left = false ∧ isEmpty right = false ∧ ∀ e ∈ expr, Settled e
  | .filter expr input => isEmpty input = false ∧ Settled expr
  | .union l r => isEmpty l = false ∧ isEmpty r = false
  | .minus l r => isEmpty l = false ∧ isEmpty r = false
  | .graph _ input => isEmpty input = false
  | .extend input _ expr => isEmpty input = false ∧ fold expr = expr
  | .group keys _ _ => (keys.map fun k => (k.1, k.2.map fold)) = keys
  | .orderBy input conditions =>
      isEmpty input = false ∧ (conditions.map fun c => (fold c.1, c.2)) = conditions
  | .distinct input => isEmpty input = false
  | .reduced input => isEmpty input = false
  | .slice input _ limit => (isEmpty input && limit != some 0) = false
  | _ => True

/-- Simplification finds nothing to do anywhere in the tree. -/
inductive Simplified : Algebra → Prop
  | node {tree : Algebra} (tidy : Tidy tree) (left : ∀ l, leftOf tree = some l → Simplified l)
      (right : ∀ r, rightOf tree = some r → Simplified r) : Simplified tree

theorem Simplified.tidy {tree : Algebra} (h : Simplified tree) : Tidy tree := by
  cases h with
  | node tidy => exact tidy

theorem Simplified.left {tree l : Algebra} (h : Simplified tree) (side : leftOf tree = some l) :
    Simplified l := by
  cases h with
  | node _ left => exact left l side

theorem Simplified.right {tree r : Algebra} (h : Simplified tree) (side : rightOf tree = some r) :
    Simplified r := by
  cases h with
  | node _ _ right => exact right r side

theorem simplified_empty : Simplified empty :=
  .node trivial (fun _ side => by cases side) fun _ side => by cases side

/-- A simplified tree stays as it is. -/
theorem simplify_of_simplified {tree : Algebra} (h : Simplified tree) : simplify tree = tree := by
  induction h with
  | @node tree tidy _ _ left right =>
  cases tree with
  | bgp ts => rfl
  | path s via o => rfl
  | table vars rows => rfl
  | join l r =>
      obtain ⟨l1, r1, l2, r2⟩ := tidy
      rw [simplify, left l rfl, right r rfl, simplifyJoin, l1, r1, l2, r2]
      rfl
  | leftJoin l r e =>
      obtain ⟨l1, r1, settled⟩ := tidy
      rw [simplify, left l rfl, right r rfl, simplifyLeftJoin, l1, r1]
      cases e with
      | none => rfl
      | some e =>
          obtain ⟨folded, open_⟩ := settled e rfl
          simp [folded, open_]
  | filter e i =>
      obtain ⟨i1, folded, open_⟩ := tidy
      rw [simplify, left i rfl, simplifyFilter, i1]
      simp [folded, open_]
  | union l r =>
      rw [simplify, left l rfl, right r rfl, simplifyUnion, tidy.1, tidy.2]
      rfl
  | minus l r =>
      rw [simplify, left l rfl, right r rfl, simplifyMinus, tidy.1, tidy.2]
      rfl
  | graph name i =>
      rw [simplify, left i rfl, unlessEmpty, show isEmpty i = false from tidy]
      rfl
  | service silent target i => rw [simplify, left i rfl]
  | extend i v e =>
      rw [simplify, left i rfl, unlessEmpty, tidy.1, tidy.2]
      rfl
  | toMultiSet i => rw [simplify, left i rfl]
  | group keys aggregates i => rw [simplify, left i rfl, show _ = keys from tidy]
  | orderBy i conditions =>
      rw [simplify, left i rfl, unlessEmpty, tidy.1, tidy.2]
      rfl
  | project i vars => rw [simplify, left i rfl]
  | distinct i =>
      rw [simplify, left i rfl, unlessEmpty, show isEmpty i = false from tidy]
      rfl
  | reduced i =>
      rw [simplify, left i rfl, unlessEmpty, show isEmpty i = false from tidy]
      rfl
  | slice i offset limit =>
      rw [simplify, left i rfl, show (isEmpty i && limit != some 0) = false from tidy]
      rfl

/-- A node with two simplified inputs. -/
theorem Simplified.pair {node l r : Algebra} (hl : Simplified l) (hr : Simplified r)
    (left : leftOf node = some l) (right : rightOf node = some r) (tidy : Tidy node) :
    Simplified node := by
  refine .node tidy (fun l side => ?_) fun r side => ?_
  · rw [left] at side
    cases side
    exact hl
  · rw [right] at side
    cases side
    exact hr

/-- A node with one simplified input. -/
theorem Simplified.single {node i : Algebra} (hi : Simplified i) (left : leftOf node = some i)
    (right : rightOf node = none) (tidy : Tidy node) : Simplified node := by
  refine .node tidy (fun l side => ?_) fun r side => ?_
  · rw [left] at side
    cases side
    exact hi
  · rw [right] at side
    cases side

theorem simplified_unlessEmpty {input node : Algebra} (tidy : isEmpty input = false → Tidy node)
    (left : leftOf node = some input) (right : rightOf node = none) (h : Simplified input) :
    Simplified (unlessEmpty input node) := by
  unfold unlessEmpty
  cases whole : isEmpty input with
  | true => exact simplified_empty
  | false => exact h.single left right (tidy whole)

theorem simplified_simplifyJoin {l r : Algebra} (hl : Simplified l) (hr : Simplified r) :
    Simplified (simplifyJoin l r) := by
  unfold simplifyJoin
  cases l1 : isEmpty l with
  | true => exact simplified_empty
  | false =>
  cases r1 : isEmpty r with
  | true => exact simplified_empty
  | false =>
  cases l2 : isUnit l with
  | true => exact hr
  | false =>
  cases r2 : isUnit r with
  | true => exact hl
  | false => exact hl.pair hr rfl rfl ⟨l1, r1, l2, r2⟩

theorem simplified_simplifyLeftJoin {l r : Algebra} (hl : Simplified l) (hr : Simplified r)
    (e : Option Expr) : Simplified (simplifyLeftJoin l r e) := by
  unfold simplifyLeftJoin
  cases l1 : isEmpty l with
  | true => exact simplified_empty
  | false =>
  cases r1 : isEmpty r with
  | true => exact hl
  | false =>
  simp only [Bool.false_eq_true, if_false]
  split
  · exact hl
  · rename_i notFalse
    split
    · exact hl.pair hr rfl rfl ⟨l1, r1, by simp⟩
    · rename_i notTrue
      refine hl.pair hr rfl rfl ⟨l1, r1, fun c mem => ?_⟩
      cases e with
      | none => cases mem
      | some e =>
          cases mem
          refine ⟨fold_fold e, ?_⟩
          cases value : ebvConst (fold e) with
          | none => rfl
          | some v => cases v <;> simp_all

theorem simplified_simplifyFilter {i : Algebra} (hi : Simplified i) (e : Expr) :
    Simplified (simplifyFilter e i) := by
  unfold simplifyFilter
  cases i1 : isEmpty i with
  | true => exact simplified_empty
  | false =>
  simp only [Bool.false_eq_true, if_false]
  split
  · exact hi
  · exact simplified_empty
  · rename_i unknown
    exact hi.single rfl rfl ⟨i1, fold_fold e, unknown⟩

theorem simplified_simplifyUnion {l r : Algebra} (hl : Simplified l) (hr : Simplified r) :
    Simplified (simplifyUnion l r) := by
  unfold simplifyUnion
  cases l1 : isEmpty l with
  | true => exact hr
  | false =>
  cases r1 : isEmpty r with
  | true => exact hl
  | false => exact hl.pair hr rfl rfl ⟨l1, r1⟩

theorem simplified_simplifyMinus {l r : Algebra} (hl : Simplified l) (hr : Simplified r) :
    Simplified (simplifyMinus l r) := by
  unfold simplifyMinus
  cases l1 : isEmpty l with
  | true => exact simplified_empty
  | false =>
  cases r1 : isEmpty r with
  | true => exact hl
  | false => exact hl.pair hr rfl rfl ⟨l1, r1⟩

/-- What simplification leaves is simplified. -/
theorem simplified_simplify (tree : Algebra) : Simplified (simplify tree) := by
  induction tree using sideInduction with
  | step tree left right =>
  cases tree with
  | bgp ts => exact .node trivial (fun _ side => by cases side) fun _ side => by cases side
  | path s via o => exact .node trivial (fun _ side => by cases side) fun _ side => by cases side
  | table vars rows => exact .node trivial (fun _ side => by cases side) fun _ side => by cases side
  | join l r => exact simplified_simplifyJoin (left l rfl) (right r rfl)
  | leftJoin l r e => exact simplified_simplifyLeftJoin (left l rfl) (right r rfl) e
  | filter e i => exact simplified_simplifyFilter (left i rfl) e
  | union l r => exact simplified_simplifyUnion (left l rfl) (right r rfl)
  | minus l r => exact simplified_simplifyMinus (left l rfl) (right r rfl)
  | graph name i => exact simplified_unlessEmpty id rfl rfl (left i rfl)
  | service silent target i => exact (left i rfl).single rfl rfl trivial
  | extend i v e =>
      exact simplified_unlessEmpty (fun whole => ⟨whole, fold_fold e⟩) rfl rfl (left i rfl)
  | toMultiSet i => exact (left i rfl).single rfl rfl trivial
  | group keys aggregates i =>
      have folded : Tidy (simplify (.group keys aggregates i)) := by
        simp only [simplify, Tidy, List.map_map]
        refine List.map_congr_left fun k _ => ?_
        obtain ⟨v, _ | e⟩ := k
        · rfl
        · simp [fold_fold]
      exact (left i rfl).single rfl rfl folded
  | orderBy i conditions =>
      refine simplified_unlessEmpty (fun whole => ⟨whole, ?_⟩) rfl rfl (left i rfl)
      rw [List.map_map]
      exact List.map_congr_left fun c _ => by simp [fold_fold]
  | project i vars => exact (left i rfl).single rfl rfl trivial
  | distinct i => exact simplified_unlessEmpty id rfl rfl (left i rfl)
  | reduced i => exact simplified_unlessEmpty id rfl rfl (left i rfl)
  | slice i offset limit =>
      rw [simplify]
      cases trivial_ : isEmpty (simplify i) && limit != some 0 with
      | true => exact simplified_empty
      | false => exact (left i rfl).single rfl rfl trivial_

/-! ## Sinking keeps trees simplified -/

/-- Full sides keep a node tidy. -/
theorem tidy_mapSides {f g : Algebra → Algebra} {node : Algebra}
    (left : ∀ l, leftOf node = some l → AsFull (f l) l)
    (right : ∀ r, rightOf node = some r → AsFull (g r) r) (h : Tidy node) :
    Tidy (mapSides f g node) := by
  cases node with
  | join l r =>
      obtain ⟨l1, r1, l2, r2⟩ := h
      exact ⟨(left l rfl).empty l1, (right r rfl).empty r1, (left l rfl).unit l2,
        (right r rfl).unit r2⟩
  | leftJoin l r e => exact ⟨(left l rfl).empty h.1, (right r rfl).empty h.2.1, h.2.2⟩
  | union l r => exact ⟨(left l rfl).empty h.1, (right r rfl).empty h.2⟩
  | minus l r => exact ⟨(left l rfl).empty h.1, (right r rfl).empty h.2⟩
  | filter e i => exact ⟨(left i rfl).empty h.1, h.2⟩
  | graph name i => exact (left i rfl).empty h
  | extend i v e => exact ⟨(left i rfl).empty h.1, h.2⟩
  | orderBy i conditions => exact ⟨(left i rfl).empty h.1, h.2⟩
  | distinct i => exact (left i rfl).empty h
  | reduced i => exact (left i rfl).empty h
  | slice i offset limit =>
      simp only [mapSides, Tidy] at h ⊢
      cases whole : isEmpty i with
      | false => rw [(left i rfl).empty whole, Bool.false_and]
      | true =>
          rw [whole, Bool.true_and] at h
          rw [h, Bool.and_false]
  | group keys aggregates i => exact h
  | service silent target i => trivial
  | toMultiSet i => trivial
  | project i vars => trivial
  | bgp ts => trivial
  | path s via o => trivial
  | table vars rows => trivial

/-- Nothing goes into an empty side of a tidy node. -/
theorem full_of_intoLeft {node l : Algebra} {c : Expr} (tidy : Tidy node)
    (into : intoLeft c node = true) (side : leftOf node = some l) : isEmpty l = false := by
  unfold intoLeft at into
  cases free : pushableVars c with
  | none =>
      rw [free] at into
      cases into
  | some cv =>
      rw [free] at into
      cases node with
      | join l r => cases side; exact tidy.1
      | leftJoin l r e => cases side; exact tidy.1
      | union l r => cases side; exact tidy.1
      | minus l r => cases side; exact tidy.1
      | graph name i => cases side; exact tidy
      | extend i v e => cases side; exact tidy.1
      | _ => cases into

theorem full_of_intoRight {node r : Algebra} {c : Expr} (tidy : Tidy node)
    (into : intoRight c node = true) (side : rightOf node = some r) : isEmpty r = false := by
  unfold intoRight at into
  cases free : pushableVars c with
  | none =>
      rw [free] at into
      cases into
  | some cv =>
      rw [free] at into
      cases node with
      | join l r => cases side; exact tidy.2.1
      | union l r => cases side; exact tidy.2
      | _ => cases into

theorem simplified_mapSides {f g : Algebra → Algebra} {node : Algebra} (tidy : Tidy node)
    (left : ∀ l, leftOf node = some l → AsFull (f l) l ∧ Simplified (f l))
    (right : ∀ r, rightOf node = some r → AsFull (g r) r ∧ Simplified (g r)) :
    Simplified (mapSides f g node) := by
  refine .node (tidy_mapSides (fun l side => (left l side).1) (fun r side => (right r side).1) tidy)
    (fun l side => ?_) fun r side => ?_
  · rw [leftOf_mapSides, Option.map_eq_some_iff] at side
    obtain ⟨l, side, rfl⟩ := side
    exact (left l side).2
  · rw [rightOf_mapSides, Option.map_eq_some_iff] at side
    obtain ⟨r, side, rfl⟩ := side
    exact (right r side).2

theorem simplified_drop {c : Expr} (settled : Settled c) {tree : Algebra} (h : Simplified tree)
    (full : isEmpty tree = false) : Simplified (drop c tree) := by
  induction tree using sideInduction with
  | step tree left right =>
  cases entered : enters c tree with
  | false =>
      rw [drop_of_not_enters entered]
      exact h.single rfl rfl ⟨full, settled⟩
  | true =>
      rw [drop_of_enters entered]
      refine simplified_mapSides h.tidy (fun l side => ?_) fun r side => ?_
      · split
        · rename_i into
          exact ⟨asFull_drop c l, left l side (h.left side) (full_of_intoLeft h.tidy into side)⟩
        · exact ⟨.refl l, h.left side⟩
      · split
        · rename_i into
          exact ⟨asFull_drop c r, right r side (h.right side) (full_of_intoRight h.tidy into side)⟩
        · exact ⟨.refl r, h.right side⟩

theorem simplified_arrive {cs : List Expr} (settled : ∀ c ∈ cs, Settled c) {tree : Algebra}
    (h : Simplified tree) (full : ∀ c ∈ cs, isEmpty tree = false) :
    Simplified (arrive cs tree) := by
  induction cs generalizing tree with
  | nil => exact h
  | cons c cs ih =>
      rw [List.forall_mem_cons] at settled full
      exact ih settled.2 (simplified_drop settled.1 h full.1)
        fun d _ => (asFull_drop c tree).empty full.1

theorem simplified_absorb {cs : List Expr} (settled : ∀ c ∈ cs, Settled c) {node : Algebra}
    (h : Simplified node) : Simplified (absorb cs node) := by
  refine simplified_mapSides h.tidy (fun l side => ⟨asFull_arrive _ l, ?_⟩)
    fun r side => ⟨asFull_arrive _ r, ?_⟩
  · refine simplified_arrive (fun c mem => settled c (List.mem_of_mem_filter mem)) (h.left side)
      fun c mem => full_of_intoLeft h.tidy (List.mem_filter.mp mem).2 side
  · refine simplified_arrive (fun c mem => settled c (List.mem_of_mem_filter mem)) (h.right side)
      fun c mem => full_of_intoRight h.tidy (List.mem_filter.mp mem).2 side

theorem simplified_wrapAll {ks : List Expr} (settled : ∀ k ∈ ks, Settled k) {node : Algebra}
    (h : Simplified node) (full : ∀ k ∈ ks, isEmpty node = false) :
    Simplified (wrapAll ks node) := by
  induction ks with
  | nil => exact h
  | cons k ks ih =>
      rw [List.forall_mem_cons] at settled full
      exact (ih settled.2 full.2).single rfl rfl ⟨(asFull_wrapAll ks node).empty full.1, settled.1⟩

/-- Sinking filters keeps a tree simplified. -/
theorem simplified_pushFiltersUnder {cs : List Expr} (settled : ∀ c ∈ cs, Settled c)
    {tree : Algebra} (h : Simplified tree) (full : ∀ c ∈ cs, isEmpty tree = false) :
    Simplified (pushFiltersUnder cs tree) := by
  induction tree using sideInduction generalizing cs with
  | step tree left right =>
  rcases filter_or tree with ⟨e, i, rfl⟩ | plain
  · obtain ⟨whole, settledE⟩ := h.tidy
    refine left i rfl (fun c mem => ?_) (h.left rfl) fun _ _ => whole
    exact (List.mem_append.mp mem).elim (settled c) (settled_of_mem settledE c)
  · have nothing : ∀ c ∈ ([] : List Expr), Settled c := by simp
    have sides : Simplified (pushSides tree) :=
      simplified_mapSides h.tidy
        (fun l side => ⟨asFull_pushFiltersUnder [] l, left l side nothing (h.left side) (by simp)⟩)
        fun r side => ⟨asFull_pushFiltersUnder [] r, right r side nothing (h.right side) (by simp)⟩
    have same : AsFull (absorb cs (pushSides tree)) tree := asFull_mapSides.trans asFull_mapSides
    rw [pushFiltersUnder_eq plain]
    exact simplified_wrapAll (fun k mem => settled k (List.mem_of_mem_filter mem))
      (simplified_absorb settled sides)
      fun k mem => same.empty (full k (List.mem_of_mem_filter mem))

/-- So does sorting patterns. -/
theorem simplified_canonicalize {tree : Algebra} (h : Simplified tree) :
    Simplified (canonicalize tree) := by
  induction h with
  | @node tree tidy _ _ left right =>
  cases inner : leftOf tree with
  | some l =>
      rw [canonicalize_sides inner]
      exact simplified_mapSides tidy (fun l side => ⟨asFull_canonicalize l, left l side⟩)
        fun r side => ⟨asFull_canonicalize r, right r side⟩
  | none =>
      have leaf : leftOf (canonicalize tree) = none ∧ rightOf (canonicalize tree) = none ∧
          Tidy (canonicalize tree) := by
        cases tree <;> first | exact ⟨rfl, rfl, trivial⟩ | cases inner
      refine .node leaf.2.2 (fun l side => ?_) fun r side => ?_
      · rw [leaf.1] at side
        cases side
      · rw [leaf.2.1] at side
        cases side

end Graphy.Sparql
