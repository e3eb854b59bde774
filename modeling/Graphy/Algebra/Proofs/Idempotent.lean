import Graphy.Algebra.Proofs.Simplified

/-!
# Rewriting twice

A second rewrite finds the tree simplified and its patterns sorted.  What is left to
it are filters that could sink further, and those are there exactly where conjuncts
came to a node out of order.
-/

namespace Graphy.Sparql

/-- Rewriting a rewritten tree changes nothing exactly when, in the simplified tree, the conjuncts
come to every node in order: none that can sink into it after one that cannot. -/
theorem rewrite_rewrite_iff (tree : Algebra) :
    rewrite (rewrite tree) = rewrite tree ↔ Orderly [] [] (simplify tree) := by
  have nothing : ∀ c ∈ ([] : List Expr), Unsplit c := by simp
  have settled : ∀ c ∈ ([] : List Expr), Settled c := by simp
  have simplified : Simplified (rewrite tree) :=
    simplified_canonicalize
      (simplified_pushFiltersUnder settled (simplified_simplify tree) (by simp))
  have sorted : canonicalize (rewrite tree) = rewrite tree := canonicalize_idem _
  have again : rewrite (rewrite tree) = pushFiltersUnder [] (rewrite tree) := by
    rw [rewrite, simplify_of_simplified simplified, pushFilters, canonicalize_pushFiltersUnder,
      sorted]
  have atRest : pushFiltersUnder [] (rewrite tree) = rewrite tree ↔ Rested [] (rewrite tree) :=
    ⟨rested_of_pushFiltersUnder nothing, pushFiltersUnder_of_rested⟩
  rw [again, atRest]
  exact rested_canonicalize.trans (rested_iff_orderly nothing nothing (simplify tree))

/-! ## Conjuncts out of order -/

section OutOfOrder

/-- `?a`, `?x` and `?y`. -/
def varA : VarId := ⟨0⟩
def varX : VarId := ⟨1⟩
def varY : VarId := ⟨2⟩

/-- One triple pattern between variables. -/
def link (s : VarId) (p : String) (o : VarId) : Algebra :=
  .bgp [⟨.var s, .term (Concise.encodeIri p), .var o⟩]

/-- `BOUND(?y)`, which waits above the optional side. -/
def boundY : Expr := .builtin .bound [.var varY]

/-- `?x = 1` -/
def xIsOne : Expr := .cmp .eq (.var varX) (.term (Concise.encodeDatatype "1" Vocab.xsdInteger))

/-- The translation of
`ASK { { ?a <p> ?x OPTIONAL { ?x <q> ?y } FILTER(BOUND(?y)) } UNION { ?a <r> ?x }
FILTER(?x = 1) }` -/
def boundBranch : Algebra :=
  .project
    (.filter xIsOne
      (.union (.filter boundY (.leftJoin (link varA "p" varX) (link varX "q" varY) none))
        (link varA "r" varX)))
    [varA, varX, varY]

/-- After the first pass the condition on `?x` sits above the other. -/
def boundBranchOnce : Algebra :=
  .project
    (.union
      (.filter xIsOne (.filter boundY (.leftJoin (link varA "p" varX) (link varX "q" varY) none)))
      (.filter xIsOne (link varA "r" varX)))
    [varA, varX, varY]

/-- The second pass splits the stack and sinks it into the first side. -/
def boundBranchTwice : Algebra :=
  .project
    (.union
      (.filter boundY
        (.leftJoin (.filter xIsOne (link varA "p" varX)) (link varX "q" varY) none))
      (.filter xIsOne (link varA "r" varX)))
    [varA, varX, varY]

theorem canonicalize_link (s : VarId) (p : String) (o : VarId) :
    canonicalize (link s p o) = link s p o := by
  simp only [link, canonicalize, sortPatterns, List.mergeSort_singleton]

theorem rewrite_boundBranch : rewrite boundBranch = boundBranchOnce := by
  have pushed : pushFilters (simplify boundBranch) = boundBranchOnce := rfl
  rw [rewrite, pushed]
  simp only [boundBranchOnce, canonicalize, canonicalize_link]

theorem rewrite_boundBranchOnce : rewrite boundBranchOnce = boundBranchTwice := by
  have pushed : pushFilters (simplify boundBranchOnce) = boundBranchTwice := rfl
  rw [rewrite, pushed]
  simp only [boundBranchTwice, canonicalize, canonicalize_link]

/-- The rewrite of a translated query that a second rewrite changes. -/
theorem rewrite_rewrite_ne : rewrite (rewrite boundBranch) ≠ rewrite boundBranch := by
  rw [rewrite_boundBranch, rewrite_boundBranchOnce]
  simp [boundBranchOnce, boundBranchTwice, xIsOne, boundY]

end OutOfOrder

end Graphy.Sparql
