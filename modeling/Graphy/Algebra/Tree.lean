import Graphy.Core.Concise

/-!
# The query algebra

A plain tree over interned variables and constant terms in concise form: the
contract between the translation of queries and the engine.  Expressions nest
patterns through `EXISTS`, so they take the type of patterns as a parameter.
-/

namespace Graphy.Sparql

/-- An interned variable. -/
structure VarId where
  index : Nat
deriving DecidableEq, Repr

inductive CmpOp where
  | eq
  | ne
  | lt
  | le
  | gt
  | ge
deriving DecidableEq, Repr

inductive Aggregate where
  | count
  | sum
  | min
  | max
  | avg
  | sample
  | groupConcat
deriving DecidableEq, Repr

/-- Builtin functions other than aggregates. -/
inductive Builtin where
  | str | lang | langMatches | datatype | bound | iri | bNode | rand | abs | ceil
  | floor | round | concat | strLen | uCase | lCase | encodeForUri | contains
  | strStarts | strEnds | strBefore | strAfter | year | month | day | hours
  | minutes | seconds | timezone | tz | now | uuid | strUuid | md5 | sha1 | sha256
  | sha384 | sha512 | coalesce | if_ | strLang | strDt | sameTerm | isIri | isBlank
  | isLiteral | isNumeric | regex | substr | replace
  | triple | subject | predicate | object | isTriple | langDir | hasLang
  | hasLangDir | strLangDir
deriving DecidableEq, Repr

/-- A pattern position: a constant in concise form, a variable, or a triple term with
variable components. -/
inductive P where
  | term (bytes : Bytes)
  | var (v : VarId)
  | triple (s p o : P)
deriving DecidableEq, Repr

/-- One triple pattern. -/
structure TriplePat where
  s : P
  p : P
  o : P
deriving DecidableEq, Repr

/-- Property paths that do not decompose into triple patterns. -/
inductive PathExpr where
  | link (iri : Bytes)
  | inverse (path : PathExpr)
  | seq (first second : PathExpr)
  | alt (first second : PathExpr)
  | zeroOrMore (path : PathExpr)
  | oneOrMore (path : PathExpr)
  | zeroOrOne (path : PathExpr)
  /-- A negated property set: members and whether each is inverted. -/
  | nps (members : List (Bytes × Bool))
deriving DecidableEq, Repr

/-- Scalar expressions over patterns of type `α`. -/
inductive Expression (α : Type) where
  | term (bytes : Bytes)
  | var (v : VarId)
  | or (a b : Expression α)
  | and (a b : Expression α)
  | cmp (op : CmpOp) (a b : Expression α)
  | in_ (expr : Expression α) (list : List (Expression α)) (negated : Bool)
  | add (a b : Expression α)
  | sub (a b : Expression α)
  | mul (a b : Expression α)
  | div (a b : Expression α)
  | not (a : Expression α)
  | unaryMinus (a : Expression α)
  | unaryPlus (a : Expression α)
  | builtin (b : Builtin) (args : List (Expression α))
  | function (iri : Bytes) (args : List (Expression α)) (distinct : Bool)
  | exists_ (negated : Bool) (pattern : α)
  | tripleTerm (s p o : Expression α)

/-- One extracted aggregate call; without an expression it is `COUNT(*)`. -/
structure AggregateExpr (α : Type) where
  func : Aggregate
  distinct : Bool
  expr : Option (Expression α)
  separator : Option String

/-- The algebra tree.  The empty `bgp` is the unit table. -/
inductive Algebra where
  | bgp (patterns : List TriplePat)
  | path (s : P) (path : PathExpr) (o : P)
  | join (l r : Algebra)
  | leftJoin (left right : Algebra) (expr : Option (Expression Algebra))
  | filter (expr : Expression Algebra) (input : Algebra)
  | union (l r : Algebra)
  | graph (graph : P) (input : Algebra)
  | service (silent : Bool) (target : P) (input : Algebra)
  | extend (input : Algebra) (var : VarId) (expr : Expression Algebra)
  | minus (l r : Algebra)
  /-- Inline data; an absent cell is UNDEF. -/
  | table (vars : List VarId) (rows : List (List (Option Bytes)))
  | toMultiSet (input : Algebra)
  | group (keys : List (VarId × Option (Expression Algebra)))
      (aggregates : List (VarId × AggregateExpr Algebra)) (input : Algebra)
  | orderBy (input : Algebra) (conditions : List (Expression Algebra × Bool))
  | project (input : Algebra) (vars : List VarId)
  | distinct (input : Algebra)
  | reduced (input : Algebra)
  | slice (input : Algebra) (offset : Nat) (limit : Option Nat)

abbrev Expr := Expression Algebra

/-! ## Visible variables -/

def pushVar (out : List VarId) (v : VarId) : List VarId := if v ∈ out then out else out ++ [v]

def visibleP (out : List VarId) : P → List VarId
  | .var v => pushVar out v
  | .term _ => out
  | .triple s p o => visibleP (visibleP (visibleP out s) p) o

def visibleFrom (out : List VarId) : Algebra → List VarId
  | .bgp ts => ts.foldl (fun out t => visibleP (visibleP (visibleP out t.s) t.p) t.o) out
  | .path s _ o => visibleP (visibleP out s) o
  | .join a b => visibleFrom (visibleFrom out a) b
  | .union a b => visibleFrom (visibleFrom out a) b
  | .leftJoin left right _ => visibleFrom (visibleFrom out left) right
  | .filter _ input => visibleFrom out input
  | .toMultiSet input => visibleFrom out input
  | .distinct input => visibleFrom out input
  | .reduced input => visibleFrom out input
  | .orderBy input _ => visibleFrom out input
  | .slice input _ _ => visibleFrom out input
  | .graph graph input => visibleFrom (visibleP out graph) input
  | .service _ target input => visibleFrom (visibleP out target) input
  | .extend input var _ => pushVar (visibleFrom out input) var
  -- The right side of MINUS does not bind.
  | .minus a _ => visibleFrom out a
  | .table vars _ => vars.foldl pushVar out
  | .group keys aggregates _ =>
      (aggregates.map Prod.fst).foldl pushVar ((keys.map Prod.fst).foldl pushVar out)
  | .project _ vars => vars.foldl pushVar out

/-- The variables a pattern's solutions may bind. -/
def visibleVars (a : Algebra) : List VarId := visibleFrom [] a

end Graphy.Sparql
