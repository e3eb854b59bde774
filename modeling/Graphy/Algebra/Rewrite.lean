import Graphy.Algebra.Tree
import Graphy.Core.Inline

/-!
# Rewriting the algebra

The standard pipeline: fold constants and drop trivial nodes bottom-up, split
filters into conjuncts and sink each as far as it can go, then sort the patterns of
every basic graph pattern.
-/

namespace Graphy.Sparql

/-! ## Constants -/

/-- Whether a double, given by its bits, is neither zero nor a NaN. -/
def doubleTruth (bits : Nat) : Bool :=
  let magnitude := bits % 2 ^ 63
  decide (magnitude ≠ 0) && decide (magnitude ≤ 0x7FF * 2 ^ 52)

/-- Effective boolean value of a constant; nothing where it is unknown or an error. -/
def ebvConst : Expr → Option Bool
  | .term bytes =>
      match Concise.decode bytes with
      | .ok (.lang lexical _ _) => some (!lexical.toList.isEmpty)
      | .ok (.simple lexical) => some (!lexical.toList.isEmpty)
      | .ok (.datatyped lexical datatype) =>
          if datatype = Vocab.xsdBoolean then
            if lexical = "true" ∨ lexical = "1" then some true
            else if lexical = "false" ∨ lexical = "0" then some false
            else none
          else if datatype = Vocab.xsdInteger then
            (parseI64 lexical.toList).map fun v => decide (v ≠ 0)
          else if datatype = Vocab.xsdDecimal ∨ datatype = Vocab.xsdDouble ∨
              datatype = Vocab.xsdFloat then
            (parseDouble lexical.toList).map doubleTruth
          else none
      | _ => none
  | _ => none

/-- Value of an integer constant. -/
def intConst : Expr → Option Int
  | .term bytes =>
      match Concise.decode bytes with
      | .ok (.datatyped lexical datatype) =>
          if datatype = Vocab.xsdInteger then parseI64 lexical.toList else none
      | _ => none
  | _ => none

def boolExpr (v : Bool) : Expr :=
  .term (Concise.encodeDatatype (if v then "true" else "false") Vocab.xsdBoolean)

def intExpr (v : Int) : Expr :=
  .term (Concise.encodeDatatype (String.ofList (renderInt v)) Vocab.xsdInteger)

/-- A 64-bit result, or nothing on overflow. -/
def checked64 (v : Int) : Option Int := if -2 ^ 63 ≤ v ∧ v < 2 ^ 63 then some v else none

def CmpOp.holds : CmpOp → Int → Int → Bool
  | .eq, x, y => decide (x = y)
  | .ne, x, y => decide (x ≠ y)
  | .lt, x, y => decide (x < y)
  | .le, x, y => decide (x ≤ y)
  | .gt, x, y => decide (y < x)
  | .ge, x, y => decide (y ≤ x)

/-- FALSE and anything is FALSE, even an error; TRUE and `x` is `x`. -/
def foldAnd (a b : Expr) : Expr :=
  match ebvConst a, ebvConst b with
  | some false, _ => boolExpr false
  | _, some false => boolExpr false
  | some true, _ => b
  | _, some true => a
  | _, _ => .and a b

def foldOr (a b : Expr) : Expr :=
  match ebvConst a, ebvConst b with
  | some true, _ => boolExpr true
  | _, some true => boolExpr true
  | some false, _ => b
  | _, some false => a
  | _, _ => .or a b

def foldNot (a : Expr) : Expr :=
  match ebvConst a with
  | some v => boolExpr !v
  | none => .not a

def foldCmp (op : CmpOp) (a b : Expr) : Expr :=
  match intConst a, intConst b with
  | some x, some y => boolExpr (op.holds x y)
  | _, _ => .cmp op a b

/-- Arithmetic on two integer constants, unless it overflows. -/
def foldArith (op : Int → Int → Int) (ctor : Expr → Expr → Expr) (a b : Expr) : Expr :=
  match intConst a, intConst b with
  | some x, some y => ((checked64 (op x y)).map intExpr).getD (ctor a b)
  | _, _ => ctor a b

def foldMinus (a : Expr) : Expr :=
  match (intConst a).bind fun v => checked64 (-v) with
  | some v => intExpr v
  | none => .unaryMinus a

def foldPlus (a : Expr) : Expr :=
  match intConst a with
  | some _ => a
  | none => .unaryPlus a

mutual

/-- Constant folding: an erring operand folds only where the truth table ignores it. -/
def fold : Expr → Expr
  | .and a b => foldAnd (fold a) (fold b)
  | .or a b => foldOr (fold a) (fold b)
  | .not a => foldNot (fold a)
  | .cmp op a b => foldCmp op (fold a) (fold b)
  | .add a b => foldArith (· + ·) .add (fold a) (fold b)
  | .sub a b => foldArith (· - ·) .sub (fold a) (fold b)
  | .mul a b => foldArith (· * ·) .mul (fold a) (fold b)
  -- Division of integers yields a decimal: no fold.
  | .div a b => .div (fold a) (fold b)
  | .unaryMinus a => foldMinus (fold a)
  | .unaryPlus a => foldPlus (fold a)
  | .in_ expr list negated => .in_ (fold expr) (foldAll list) negated
  | .builtin b args => .builtin b (foldAll args)
  | .function iri args distinct => .function iri (foldAll args) distinct
  | .tripleTerm s p o => .tripleTerm (fold s) (fold p) (fold o)
  | .term bytes => .term bytes
  | .var v => .var v
  | .exists_ negated pattern => .exists_ negated pattern

def foldAll : List Expr → List Expr
  | [] => []
  | e :: es => fold e :: foldAll es

end

attribute [grind =] fold foldAll

/-! ## Simplification -/

/-- The empty table. -/
def empty : Algebra := .table [] []

def isEmpty : Algebra → Bool
  | .table _ rows => rows.isEmpty
  | _ => false

def isUnit : Algebra → Bool
  | .bgp ts => ts.isEmpty
  | _ => false

/-- The empty table where the input is empty. -/
def unlessEmpty (input : Algebra) (node : Algebra) : Algebra :=
  if isEmpty input then empty else node

def simplifyJoin (l r : Algebra) : Algebra :=
  if isEmpty l || isEmpty r then empty
  else if isUnit l then r
  else if isUnit r then l
  else .join l r

def simplifyLeftJoin (left right : Algebra) (expr : Option Expr) : Algebra :=
  if isEmpty left then empty
  -- An empty optional side extends nothing, and neither does a condition that never holds.
  else if isEmpty right then left
  else
    let expr := expr.map fold
    if expr.bind ebvConst = some false then left
    else if expr.bind ebvConst = some true then .leftJoin left right none
    else .leftJoin left right expr

def simplifyFilter (expr : Expr) (input : Algebra) : Algebra :=
  if isEmpty input then empty
  else
    let expr := fold expr
    match ebvConst expr with
    | some true => input
    | some false => empty
    | none => .filter expr input

def simplifyUnion (l r : Algebra) : Algebra :=
  if isEmpty l then r
  else if isEmpty r then l
  else .union l r

def simplifyMinus (l r : Algebra) : Algebra :=
  if isEmpty l then empty
  else if isEmpty r then l
  else .minus l r

/-- Fold constants and drop trivial nodes, bottom-up. -/
def simplify : Algebra → Algebra
  | .bgp ts => .bgp ts
  | .table vars rows => .table vars rows
  | .path s path o => .path s path o
  | .join l r => simplifyJoin (simplify l) (simplify r)
  | .leftJoin left right expr => simplifyLeftJoin (simplify left) (simplify right) expr
  | .filter expr input => simplifyFilter expr (simplify input)
  | .union l r => simplifyUnion (simplify l) (simplify r)
  | .graph graph input => unlessEmpty (simplify input) (.graph graph (simplify input))
  -- Nothing is assumed across the boundary of a service.
  | .service silent target input => .service silent target (simplify input)
  | .extend input var expr =>
      unlessEmpty (simplify input) (.extend (simplify input) var (fold expr))
  | .minus l r => simplifyMinus (simplify l) (simplify r)
  | .toMultiSet input => .toMultiSet (simplify input)
  | .group keys aggregates input =>
      .group (keys.map fun k => (k.1, k.2.map fold)) aggregates (simplify input)
  | .orderBy input conditions =>
      unlessEmpty (simplify input)
        (.orderBy (simplify input) (conditions.map fun c => (fold c.1, c.2)))
  | .project input vars => .project (simplify input) vars
  | .distinct input => unlessEmpty (simplify input) (.distinct (simplify input))
  | .reduced input => unlessEmpty (simplify input) (.reduced (simplify input))
  | .slice input offset limit =>
      if isEmpty (simplify input) && limit != some 0 then empty
      else .slice (simplify input) offset limit

/-! ## Sinking filters -/

mutual

/-- The variables an expression depends on, after `out`; nothing when it must not move: it
asks whether a pattern exists, or calls a function that is not deterministic. -/
def walkVars (out : List VarId) : Expr → Option (List VarId)
  | .exists_ _ _ => none
  | .builtin b args =>
      if b = .rand ∨ b = .bNode ∨ b = .uuid ∨ b = .strUuid then none else walkAll out args
  | .var v => some (v :: out)
  | .term _ => some out
  | .or a b => (walkVars out a).bind fun out => walkVars out b
  | .and a b => (walkVars out a).bind fun out => walkVars out b
  | .cmp _ a b => (walkVars out a).bind fun out => walkVars out b
  | .add a b => (walkVars out a).bind fun out => walkVars out b
  | .sub a b => (walkVars out a).bind fun out => walkVars out b
  | .mul a b => (walkVars out a).bind fun out => walkVars out b
  | .div a b => (walkVars out a).bind fun out => walkVars out b
  | .in_ expr list _ => (walkVars out expr).bind fun out => walkAll out list
  | .not a => walkVars out a
  | .unaryMinus a => walkVars out a
  | .unaryPlus a => walkVars out a
  | .function _ args _ => walkAll out args
  | .tripleTerm s p o =>
      ((walkVars out s).bind fun out => walkVars out p).bind fun out => walkVars out o

def walkAll (out : List VarId) : List Expr → Option (List VarId)
  | [] => some out
  | e :: es => (walkVars out e).bind fun out => walkAll out es

end

def pushableVars (e : Expr) : Option (List VarId) := walkVars [] e

/-- The conjuncts of a condition, in order. -/
def splitAnd : Expr → List Expr
  | .and a b => splitAnd a ++ splitAnd b
  | e => [e]

def wrap : Option Expr → Algebra → Algebra
  | some expr, tree => .filter expr tree
  | none, tree => tree

/-- Sink one conjunct into the input: what is left over of it, and the tree. -/
def tryPush (c : Expr) (input : Algebra) : Option Expr × Algebra :=
  match pushableVars c with
  | none => (some c, input)
  | some cv =>
      match input with
      | .join l r =>
          if cv ⊆ visibleVars l then
            let (leftover, l2) := tryPush c l
            (none, .join (wrap leftover l2) r)
          else if cv ⊆ visibleVars r then
            let (leftover, r2) := tryPush c r
            (none, .join l (wrap leftover r2))
          else (some c, .join l r)
      | .union l r =>
          let (cl, l2) := tryPush c l
          let (cr, r2) := tryPush c r
          (none, .union (wrap cl l2) (wrap cr r2))
      | .graph graph input =>
          -- The graph variable is bound only after the inner pattern evaluates.
          if cv.any fun v => decide (graph = .var v) then (some c, .graph graph input)
          else
            let (leftover, inner) := tryPush c input
            (none, .graph graph (wrap leftover inner))
      | .leftJoin left right expr =>
          if cv ⊆ visibleVars left then
            let (leftover, l2) := tryPush c left
            (none, .leftJoin (wrap leftover l2) right expr)
          else (some c, .leftJoin left right expr)
      | .extend input var expr =>
          if var ∈ cv then (some c, .extend input var expr)
          else
            let (leftover, inner) := tryPush c input
            (none, .extend (wrap leftover inner) var expr)
      | .minus l r =>
          let (leftover, l2) := tryPush c l
          (none, .minus (wrap leftover l2) r)
      | other => (some c, other)

/-- Sink conjuncts one after the other: those left over, in order, and the tree. -/
def pushAll : List Expr → Algebra → List Expr × Algebra
  | [], acc => ([], acc)
  | c :: cs, acc =>
      match tryPush c acc with
      | (none, next) => pushAll cs next
      | (some c, next) => (c :: (pushAll cs next).1, (pushAll cs next).2)

/-- Filters around a tree, the first conjunct outermost. -/
def wrapAll (kept : List Expr) (tree : Algebra) : Algebra := kept.foldr Algebra.filter tree

/-- Split and sink the filters of a tree; `conjuncts` are those of the filters right above
it. -/
def pushFiltersUnder (conjuncts : List Expr) : Algebra → Algebra
  | .filter expr input => pushFiltersUnder (conjuncts ++ splitAnd expr) input
  | .join l r => sink (.join (pushFiltersUnder [] l) (pushFiltersUnder [] r))
  | .leftJoin left right expr =>
      sink (.leftJoin (pushFiltersUnder [] left) (pushFiltersUnder [] right) expr)
  | .union l r => sink (.union (pushFiltersUnder [] l) (pushFiltersUnder [] r))
  | .graph graph input => sink (.graph graph (pushFiltersUnder [] input))
  | .service silent target input => sink (.service silent target (pushFiltersUnder [] input))
  | .extend input var expr => sink (.extend (pushFiltersUnder [] input) var expr)
  | .minus l r => sink (.minus (pushFiltersUnder [] l) (pushFiltersUnder [] r))
  | .toMultiSet input => sink (.toMultiSet (pushFiltersUnder [] input))
  | .group keys aggregates input => sink (.group keys aggregates (pushFiltersUnder [] input))
  | .orderBy input conditions => sink (.orderBy (pushFiltersUnder [] input) conditions)
  | .project input vars => sink (.project (pushFiltersUnder [] input) vars)
  | .distinct input => sink (.distinct (pushFiltersUnder [] input))
  | .reduced input => sink (.reduced (pushFiltersUnder [] input))
  | .slice input offset limit => sink (.slice (pushFiltersUnder [] input) offset limit)
  | .bgp ts => sink (.bgp ts)
  | .path s path o => sink (.path s path o)
  | .table vars rows => sink (.table vars rows)
where
  /-- The conjuncts above a node sunk into it, those left over put back. -/
  sink (node : Algebra) : Algebra :=
    wrapAll (pushAll conjuncts node).1 (pushAll conjuncts node).2

def pushFilters (a : Algebra) : Algebra := pushFiltersUnder [] a

/-! ## Canonical order -/

/-- The derived order of pattern positions. -/
def P.cmp : P → P → Ordering
  | .term a, .term b => compare a b
  | .term _, _ => .lt
  | _, .term _ => .gt
  | .var a, .var b => compare a.index b.index
  | .var _, .triple _ _ _ => .lt
  | .triple _ _ _, .var _ => .gt
  | .triple s p o, .triple s' p' o' => ((P.cmp s s').then (P.cmp p p')).then (P.cmp o o')

def TriplePat.cmp (a b : TriplePat) : Ordering :=
  ((P.cmp a.s b.s).then (P.cmp a.p b.p)).then (P.cmp a.o b.o)

def sortPatterns (ts : List TriplePat) : List TriplePat :=
  ts.mergeSort fun a b => (TriplePat.cmp a b).isLE

/-- Every basic graph pattern sorted. -/
def canonicalize : Algebra → Algebra
  | .bgp ts => .bgp (sortPatterns ts)
  | .join l r => .join (canonicalize l) (canonicalize r)
  | .leftJoin left right expr => .leftJoin (canonicalize left) (canonicalize right) expr
  | .filter expr input => .filter expr (canonicalize input)
  | .union l r => .union (canonicalize l) (canonicalize r)
  | .graph graph input => .graph graph (canonicalize input)
  | .service silent target input => .service silent target (canonicalize input)
  | .extend input var expr => .extend (canonicalize input) var expr
  | .minus l r => .minus (canonicalize l) (canonicalize r)
  | .toMultiSet input => .toMultiSet (canonicalize input)
  | .group keys aggregates input => .group keys aggregates (canonicalize input)
  | .orderBy input conditions => .orderBy (canonicalize input) conditions
  | .project input vars => .project (canonicalize input) vars
  | .distinct input => .distinct (canonicalize input)
  | .reduced input => .reduced (canonicalize input)
  | .slice input offset limit => .slice (canonicalize input) offset limit
  | .path s path o => .path s path o
  | .table vars rows => .table vars rows

/-- The standard pipeline. -/
def rewrite (root : Algebra) : Algebra := canonicalize (pushFilters (simplify root))

end Graphy.Sparql
