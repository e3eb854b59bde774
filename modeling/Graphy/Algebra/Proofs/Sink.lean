import Graphy.Algebra.Proofs.Tree

/-!
# Where filters come to rest

A conjunct sinks through every node it can enter and stops at the first it cannot, or
above a filter that rests there already.  So the pass is idempotent on a tree exactly
where no conjunct that could sink further stops above another.
-/

namespace Graphy.Sparql

open Graphy.Sparql.Algebra

/-! ## Entering a node -/

/-- The conjunct goes into the first side. -/
def intoLeft (c : Expr) (node : Algebra) : Bool :=
  match pushableVars c with
  | none => false
  | some cv =>
      match node with
      | .join l _ => decide (cv ⊆ visibleVars l)
      | .union _ _ => true
      | .graph name _ => !cv.any fun v => decide (name = .var v)
      | .leftJoin left _ _ => decide (cv ⊆ visibleVars left)
      | .extend _ var _ => decide (var ∉ cv)
      | .minus _ _ => true
      | _ => false

/-- The conjunct goes into the second side. -/
def intoRight (c : Expr) (node : Algebra) : Bool :=
  match pushableVars c with
  | none => false
  | some cv =>
      match node with
      | .join l r => !decide (cv ⊆ visibleVars l) && decide (cv ⊆ visibleVars r)
      | .union _ _ => true
      | _ => false

/-- The conjunct can sink into the node. -/
def enters (c : Expr) (node : Algebra) : Bool := intoLeft c node || intoRight c node

/-- A conjunct arrives at a tree: it sinks, or it is put above. -/
def drop (c : Expr) (tree : Algebra) : Algebra := wrap (tryPush c tree).1 (tryPush c tree).2

/-- Conjuncts arrive one after the other. -/
def arrive (cs : List Expr) (tree : Algebra) : Algebra := cs.foldl (fun t c => drop c t) tree

theorem tryPush_eq (c : Expr) (node : Algebra) :
    tryPush c node =
      if enters c node then
        (none, mapSides (if intoLeft c node then drop c else id)
          (if intoRight c node then drop c else id) node)
      else (some c, node) := by
  rw [tryPush.eq_def]
  unfold enters intoLeft intoRight
  cases pushableVars c with
  | none => rfl
  | some cv =>
      cases node with
      | join l r =>
          by_cases left : cv ⊆ visibleVars l
          · simp only [if_pos left, decide_eq_true left]
            rfl
          · by_cases right : cv ⊆ visibleVars r
            · simp only [if_neg left, if_pos right, decide_eq_false left, decide_eq_true right]
              rfl
            · simp only [if_neg left, if_neg right, decide_eq_false left, decide_eq_false right]
              rfl
      | union l r => rfl
      | graph name i =>
          by_cases named : (cv.any fun v => decide (name = .var v)) = true
          · simp only [named]
            rfl
          · simp only [Bool.eq_false_iff.mpr named]
            rfl
      | leftJoin l r e =>
          by_cases left : cv ⊆ visibleVars l
          · simp only [if_pos left, decide_eq_true left]
            rfl
          · simp only [if_neg left, decide_eq_false left]
            rfl
      | extend i v e =>
          by_cases used : v ∈ cv
          · simp only [not_true, used]
            rfl
          · simp only [not_false_eq_true, decide_true, used]
            rfl
      | minus l r => rfl
      | bgp ts => rfl
      | path s via o => rfl
      | table vars rows => rfl
      | filter e i => rfl
      | service silent target i => rfl
      | toMultiSet i => rfl
      | group keys aggregates i => rfl
      | orderBy i conditions => rfl
      | project i vars => rfl
      | distinct i => rfl
      | reduced i => rfl
      | slice i offset limit => rfl

theorem drop_of_enters {c : Expr} {node : Algebra} (h : enters c node = true) :
    drop c node = mapSides (if intoLeft c node then drop c else id)
      (if intoRight c node then drop c else id) node := by
  unfold drop
  rw [tryPush_eq, if_pos h]
  rfl

theorem drop_of_not_enters {c : Expr} {node : Algebra} (h : enters c node = false) :
    drop c node = .filter c node := by
  unfold drop
  rw [tryPush_eq, if_neg (Bool.eq_false_iff.mp h)]
  rfl

theorem enters_filter (c e : Expr) (i : Algebra) : enters c (.filter e i) = false := by
  unfold enters intoLeft intoRight
  cases pushableVars c <;> rfl

/-! ## Sinking binds nothing -/

theorem sameVars_filter (c : Expr) (tree : Algebra) : SameVars (.filter c tree) tree :=
  fun _ => Iff.rfl

theorem sameVars_drop (c : Expr) (tree : Algebra) : SameVars (drop c tree) tree := by
  induction tree using sideInduction with
  | step tree left right =>
  cases entered : enters c tree with
  | false =>
      rw [drop_of_not_enters entered]
      exact sameVars_filter c tree
  | true =>
      rw [drop_of_enters entered]
      refine sameVars_mapSides (fun l side => ?_) fun r side => ?_
      · split
        · exact left l side
        · exact .refl l
      · split
        · exact right r side
        · exact .refl r

theorem sameVars_arrive (cs : List Expr) (tree : Algebra) : SameVars (arrive cs tree) tree := by
  induction cs generalizing tree with
  | nil => exact .refl tree
  | cons c cs ih => exact (ih (drop c tree)).trans (sameVars_drop c tree)

section Same

variable {f g : Algebra → Algebra} {node : Algebra}

/-- What a conjunct enters depends on the variables the sides may bind. -/
theorem intoLeft_mapSides (left : ∀ l, leftOf node = some l → SameVars (f l) l) (c : Expr) :
    intoLeft c (mapSides f g node) = intoLeft c node := by
  unfold intoLeft
  cases pushableVars c with
  | none => rfl
  | some cv =>
      cases node with
      | join l r => simp only [mapSides, (left l rfl).subset_iff cv]
      | leftJoin l r e => simp only [mapSides, (left l rfl).subset_iff cv]
      | _ => rfl

theorem intoRight_mapSides (left : ∀ l, leftOf node = some l → SameVars (f l) l)
    (right : ∀ r, rightOf node = some r → SameVars (g r) r) (c : Expr) :
    intoRight c (mapSides f g node) = intoRight c node := by
  unfold intoRight
  cases pushableVars c with
  | none => rfl
  | some cv =>
      cases node with
      | join l r =>
          simp only [mapSides, (left l rfl).subset_iff cv, (right r rfl).subset_iff cv]
      | _ => rfl

theorem enters_mapSides (left : ∀ l, leftOf node = some l → SameVars (f l) l)
    (right : ∀ r, rightOf node = some r → SameVars (g r) r) (c : Expr) :
    enters c (mapSides f g node) = enters c node := by
  unfold enters
  rw [intoLeft_mapSides left, intoRight_mapSides left right]

end Same

/-! ## Arriving at a node -/

/-- Those that go into the first side. -/
def leftward (cs : List Expr) (node : Algebra) : List Expr := cs.filter fun c => intoLeft c node

/-- Those that go into the second side. -/
def rightward (cs : List Expr) (node : Algebra) : List Expr := cs.filter fun c => intoRight c node

/-- The sides of a node after conjuncts went into it. -/
def absorb (cs : List Expr) (node : Algebra) : Algebra :=
  mapSides (arrive (leftward cs node)) (arrive (rightward cs node)) node

@[simp] theorem leftOf_absorb (cs : List Expr) (node : Algebra) :
    leftOf (absorb cs node) = (leftOf node).map (arrive (leftward cs node)) := leftOf_mapSides

@[simp] theorem rightOf_absorb (cs : List Expr) (node : Algebra) :
    rightOf (absorb cs node) = (rightOf node).map (arrive (rightward cs node)) := rightOf_mapSides

@[simp] theorem isFilter_absorb (cs : List Expr) (node : Algebra) :
    isFilter (absorb cs node) = isFilter node := isFilter_mapSides

theorem absorb_nil (node : Algebra) : absorb [] node = node := mapSides_id

theorem enters_absorb (cs : List Expr) (node : Algebra) (c : Expr) :
    enters c (absorb cs node) = enters c node :=
  enters_mapSides (fun l _ => sameVars_arrive _ l) (fun r _ => sameVars_arrive _ r) c

theorem intoLeft_absorb (cs : List Expr) (node : Algebra) (c : Expr) :
    intoLeft c (absorb cs node) = intoLeft c node :=
  intoLeft_mapSides (fun l _ => sameVars_arrive _ l) c

theorem intoRight_absorb (cs : List Expr) (node : Algebra) (c : Expr) :
    intoRight c (absorb cs node) = intoRight c node :=
  intoRight_mapSides (fun l _ => sameVars_arrive _ l) (fun r _ => sameVars_arrive _ r) c

/-- One more conjunct goes into a node. -/
theorem drop_absorb {c : Expr} {node : Algebra} (h : enters c node = true) (cs : List Expr) :
    drop c (absorb cs node) = absorb (cs ++ [c]) node := by
  rw [drop_of_enters (by rw [enters_absorb, h]), intoLeft_absorb, intoRight_absorb]
  unfold absorb leftward rightward
  rw [mapSides_mapSides]
  refine mapSides_congr (fun l _ => ?_) fun r _ => ?_
  · cases into : intoLeft c node with
    | true => simp [List.filter_append, into, arrive]
    | false => simp [List.filter_append, into]
  · cases into : intoRight c node with
    | true => simp [List.filter_append, into, arrive]
    | false => simp [List.filter_append, into]

/-- Conjuncts that do not enter are left over, the others go into the node. -/
theorem pushAll_absorb (cs done : List Expr) (node : Algebra) :
    pushAll cs (absorb done node) =
      (cs.filter fun c => !enters c node,
        absorb (done ++ cs.filter fun c => enters c node) node) := by
  induction cs generalizing done with
  | nil => simp [pushAll]
  | cons c cs ih =>
      rw [pushAll]
      cases entered : enters c node with
      | true =>
          have pushed : tryPush c (absorb done node) = (none, absorb (done ++ [c]) node) := by
            have dropped := drop_absorb entered done
            unfold drop at dropped
            rw [tryPush_eq, if_pos (by rw [enters_absorb, entered])] at dropped ⊢
            exact congrArg _ dropped
          rw [pushed]
          simp only
          rw [ih]
          simp [entered]
      | false =>
          rw [tryPush_eq, if_neg (by rw [enters_absorb, entered]; exact Bool.false_ne_true)]
          simp only
          rw [ih]
          simp [entered]

/-! ## The pass -/

theorem wrapAll_append (cs ds : List Expr) (tree : Algebra) :
    wrapAll (cs ++ ds) tree = wrapAll cs (wrapAll ds tree) := List.foldr_append

theorem sameVars_wrapAll (cs : List Expr) (tree : Algebra) : SameVars (wrapAll cs tree) tree := by
  induction cs with
  | nil => exact .refl tree
  | cons c cs ih => exact ih

theorem sameVars_absorb (cs : List Expr) (node : Algebra) : SameVars (absorb cs node) node :=
  sameVars_mapSides (fun l _ => sameVars_arrive _ l) fun r _ => sameVars_arrive _ r

/-- A conjunct that goes into a side enters. -/
theorem absorb_filter (cs : List Expr) (node : Algebra) :
    absorb (cs.filter fun c => enters c node) node = absorb cs node := by
  have left : leftward (cs.filter fun c => enters c node) node = leftward cs node := by
    unfold leftward
    rw [List.filter_filter]
    refine List.filter_congr fun c _ => ?_
    unfold enters
    cases intoLeft c node <;> simp
  have right : rightward (cs.filter fun c => enters c node) node = rightward cs node := by
    unfold rightward
    rw [List.filter_filter]
    refine List.filter_congr fun c _ => ?_
    unfold enters
    cases intoRight c node <;> simp
  unfold absorb
  rw [left, right]

/-- The inputs of a node pushed. -/
def pushSides (node : Algebra) : Algebra := mapSides pushFilters pushFilters node

@[simp] theorem leftOf_pushSides (node : Algebra) :
    leftOf (pushSides node) = (leftOf node).map pushFilters := leftOf_mapSides

@[simp] theorem rightOf_pushSides (node : Algebra) :
    rightOf (pushSides node) = (rightOf node).map pushFilters := rightOf_mapSides

@[simp] theorem isFilter_pushSides (node : Algebra) : isFilter (pushSides node) = isFilter node :=
  isFilter_mapSides

/-- Those conjuncts that cannot enter the node. -/
def staying (cs : List Expr) (node : Algebra) : List Expr := cs.filter fun c => !enters c node

theorem pushFiltersUnder_sides {node : Algebra} (plain : isFilter node = false) (cs : List Expr) :
    pushFiltersUnder cs node =
      wrapAll (staying cs (pushSides node)) (absorb cs (pushSides node)) := by
  have sunk : pushFiltersUnder cs node =
      wrapAll (pushAll cs (pushSides node)).1 (pushAll cs (pushSides node)).2 := by
    cases node with
    | filter e i => cases plain
    | _ => rfl
  have pushed := pushAll_absorb cs [] (pushSides node)
  rw [absorb_nil, List.nil_append, absorb_filter] at pushed
  rw [sunk, pushed]
  rfl

theorem sameVars_pushFiltersUnder (cs : List Expr) (tree : Algebra) :
    SameVars (pushFiltersUnder cs tree) tree := by
  induction tree using sideInduction generalizing cs with
  | step tree left right =>
  rcases filter_or tree with ⟨e, i, rfl⟩ | plain
  · exact left i rfl _
  · rw [pushFiltersUnder_sides plain]
    refine (sameVars_wrapAll _ _).trans ((sameVars_absorb _ _).trans ?_)
    exact sameVars_mapSides (fun l side => left l side []) fun r side => right r side []

theorem enters_pushSides (node : Algebra) (c : Expr) : enters c (pushSides node) = enters c node :=
  enters_mapSides (fun l _ => sameVars_pushFiltersUnder [] l)
    (fun r _ => sameVars_pushFiltersUnder [] r) c

theorem leftward_pushSides (cs : List Expr) (node : Algebra) :
    leftward cs (pushSides node) = leftward cs node :=
  List.filter_congr fun c _ => intoLeft_mapSides (fun l _ => sameVars_pushFiltersUnder [] l) c

theorem rightward_pushSides (cs : List Expr) (node : Algebra) :
    rightward cs (pushSides node) = rightward cs node :=
  List.filter_congr fun c _ => intoRight_mapSides (fun l _ => sameVars_pushFiltersUnder [] l)
    (fun r _ => sameVars_pushFiltersUnder [] r) c

theorem pushFiltersUnder_eq {node : Algebra} (plain : isFilter node = false) (cs : List Expr) :
    pushFiltersUnder cs node = wrapAll (staying cs node) (absorb cs (pushSides node)) := by
  have same : staying cs (pushSides node) = staying cs node :=
    List.filter_congr fun c _ => by rw [enters_pushSides]
  rw [pushFiltersUnder_sides plain, same]

/-! ## Filters at rest -/

/-- No conjunct of a condition splits further. -/
def Unsplit (e : Expr) : Prop := splitAnd e = [e]

theorem unsplit_of_mem {e c : Expr} (mem : c ∈ splitAnd e) : Unsplit c := by
  induction e using splitAnd.induct with
  | case1 a b iha ihb =>
      rw [splitAnd, List.mem_append] at mem
      exact mem.elim iha ihb
  | case2 e other =>
      have whole : splitAnd e = [e] := by
        cases e with
        | and a b => exact (other a b rfl).elim
        | _ => rfl
      rw [whole, List.mem_singleton] at mem
      rw [mem]
      exact whole

/-- No filter of the tree, nor any of the conjuncts above it, can sink further. -/
inductive Rested : List Expr → Algebra → Prop
  | filter {cs : List Expr} {e : Expr} {i : Algebra} (unsplit : Unsplit e)
      (input : Rested (cs ++ [e]) i) : Rested cs (.filter e i)
  | node {cs : List Expr} {node : Algebra} (plain : isFilter node = false)
      (stay : ∀ c ∈ cs, enters c node = false)
      (left : ∀ l, leftOf node = some l → Rested [] l)
      (right : ∀ r, rightOf node = some r → Rested [] r) : Rested cs node

theorem rested_wrapAll {ks cs : List Expr} {node : Algebra} (unsplit : ∀ k ∈ ks, Unsplit k) :
    Rested cs (wrapAll ks node) ↔ Rested (cs ++ ks) node := by
  induction ks generalizing cs with
  | nil => simp [wrapAll]
  | cons k ks ih =>
      rw [List.forall_mem_cons] at unsplit
      have step : Rested cs (wrapAll (k :: ks) node) ↔ Rested (cs ++ [k]) (wrapAll ks node) := by
        constructor
        · intro h
          cases h with
          | filter _ input => exact input
          | node plain => cases plain
        · exact .filter unsplit.1
      rw [step, ih unsplit.2, List.append_assoc, List.singleton_append]

theorem rested_node {cs : List Expr} {node : Algebra} (plain : isFilter node = false) :
    Rested cs node ↔ (∀ c ∈ cs, enters c node = false) ∧
      (∀ l, leftOf node = some l → Rested [] l) ∧ ∀ r, rightOf node = some r → Rested [] r := by
  constructor
  · intro h
    cases h with
    | filter => cases plain
    | node _ stay left right => exact ⟨stay, left, right⟩
  · exact fun h => .node plain h.1 h.2.1 h.2.2

/-- A stack of filters and what is under it are one another's. -/
theorem wrapAll_inj {ks ls : List Expr} {a b : Algebra} (plainA : isFilter a = false)
    (plainB : isFilter b = false) (same : wrapAll ks a = wrapAll ls b) : ks = ls ∧ a = b := by
  induction ks generalizing ls with
  | nil =>
      cases ls with
      | nil => exact ⟨rfl, same⟩
      | cons l ls =>
          rw [show a = .filter l (wrapAll ls b) from same] at plainA
          cases plainA
  | cons k ks ih =>
      cases ls with
      | nil =>
          rw [show b = .filter k (wrapAll ks a) from same.symm] at plainB
          cases plainB
      | cons l ls =>
          obtain ⟨head, tail⟩ := Algebra.filter.inj same
          obtain ⟨rest, node⟩ := ih tail
          exact ⟨by rw [head, rest], node⟩

/-- The pass leaves a tree as it is when its filters are at rest. -/
theorem pushFiltersUnder_of_rested {cs : List Expr} {tree : Algebra} (h : Rested cs tree) :
    pushFiltersUnder cs tree = wrapAll cs tree := by
  induction h with
  | @filter cs e i unsplit _ ih =>
      rw [pushFiltersUnder, unsplit, ih, wrapAll_append]
      rfl
  | @node cs node plain stay left right ihl ihr =>
      have all : staying cs node = cs := List.filter_eq_self.mpr fun c mem => by
        rw [stay c mem]
        rfl
      have none_ : cs.filter (fun c => enters c (pushSides node)) = [] :=
        List.filter_eq_nil_iff.mpr fun c mem => by
          rw [enters_pushSides, stay c mem]
          exact Bool.false_ne_true
      have sides : pushSides node = node :=
        (mapSides_congr ihl ihr).trans mapSides_id
      rw [pushFiltersUnder_eq plain, all, ← absorb_filter, none_, absorb_nil, sides]

theorem exists_stack (tree : Algebra) :
    ∃ ks node, isFilter node = false ∧ tree = wrapAll ks node := by
  induction tree using sideInduction with
  | step tree left right =>
  rcases filter_or tree with ⟨e, i, rfl⟩ | plain
  · obtain ⟨ks, node, plain, same⟩ := left i rfl
    exact ⟨e :: ks, node, plain, by rw [same]; rfl⟩
  · exact ⟨[], tree, plain, rfl⟩

/-- The filters the pass puts on top are conjuncts. -/
theorem exists_pushed (cs : List Expr) (unsplit : ∀ c ∈ cs, Unsplit c) (tree : Algebra) :
    ∃ ks node, isFilter node = false ∧ (∀ k ∈ ks, Unsplit k) ∧
      pushFiltersUnder cs tree = wrapAll ks node := by
  induction tree using sideInduction generalizing cs with
  | step tree left right =>
  rcases filter_or tree with ⟨e, i, rfl⟩ | plain
  · refine left i rfl _ fun c mem => ?_
    rw [List.mem_append] at mem
    exact mem.elim (unsplit c) unsplit_of_mem
  · refine ⟨_, _, ?_, fun k mem => unsplit k (List.mem_of_mem_filter mem),
      pushFiltersUnder_eq plain cs⟩
    rw [isFilter_absorb, isFilter_pushSides, plain]

/-- The pass leaves a tree as it is only when its filters are at rest. -/
theorem rested_of_pushFiltersUnder {cs : List Expr} (unsplit : ∀ c ∈ cs, Unsplit c)
    {tree : Algebra} (fixed : pushFiltersUnder cs tree = wrapAll cs tree) : Rested cs tree := by
  induction tree using sideInduction generalizing cs with
  | step tree left right =>
  rcases filter_or tree with ⟨e, i, rfl⟩ | plain
  · obtain ⟨ks, node, plain, unsplitKs, pushed⟩ := exists_pushed cs unsplit (.filter e i)
    obtain ⟨ls, node', plain', same⟩ := exists_stack i
    have stack : wrapAll ks node = wrapAll (cs ++ e :: ls) node' := by
      rw [← pushed, fixed, wrapAll_append, same]
      rfl
    have unsplitE : Unsplit e := by
      refine unsplitKs e ?_
      rw [(wrapAll_inj plain plain' stack).1]
      simp
    refine .filter unsplitE (left i rfl (fun c mem => ?_) ?_)
    · rw [List.mem_append, List.mem_singleton] at mem
      rcases mem with mem | rfl
      · exact unsplit c mem
      · exact unsplitE
    · rw [pushFiltersUnder, unsplitE] at fixed
      rw [fixed, wrapAll_append]
      rfl
  · rw [pushFiltersUnder_eq plain] at fixed
    have plainSunk : isFilter (absorb cs (pushSides tree)) = false := by
      rw [isFilter_absorb, isFilter_pushSides, plain]
    obtain ⟨all, node⟩ := wrapAll_inj plainSunk plain fixed
    have stay : ∀ c ∈ cs, enters c tree = false := fun c mem => by
      rw [← all] at mem
      simpa using (List.mem_filter.mp mem).2
    have none_ : cs.filter (fun c => enters c (pushSides tree)) = [] :=
      List.filter_eq_nil_iff.mpr fun c mem => by
        rw [enters_pushSides, stay c mem]
        exact Bool.false_ne_true
    rw [← absorb_filter, none_, absorb_nil] at node
    have sides := sides_of_mapSides_eq (node.trans mapSides_id.symm)
    have nothing : ∀ c ∈ ([] : List Expr), Unsplit c := by simp
    exact .node plain stay (fun l side => left l side nothing (sides.1 l side))
      fun r side => right r side nothing (sides.2 r side)

/-! ## Conjuncts in order -/

/-- Of the conjuncts that come to a node, those that enter come before those that stay: the
filters above the node are sunk first, then the others arrive. -/
structure InOrder (own arriving : List Expr) (node : Algebra) : Prop where
  own : ∀ c ∈ arriving, enters c node = true → ∀ d ∈ own, enters d node = true
  arriving : arriving.Pairwise fun d c => enters c node = true → enters d node = true

/-- At every node the conjuncts come in order: `own` are those of the filters right above the
tree, `arriving` those from farther up that can sink this far. -/
inductive Orderly : List Expr → List Expr → Algebra → Prop
  | filter {own arriving : List Expr} {e : Expr} {i : Algebra}
      (input : Orderly (own ++ splitAnd e) arriving i) : Orderly own arriving (.filter e i)
  | node {own arriving : List Expr} {node : Algebra} (plain : isFilter node = false)
      (order : InOrder own arriving node)
      (left : ∀ l, leftOf node = some l → Orderly [] (leftward (own ++ arriving) node) l)
      (right : ∀ r, rightOf node = some r → Orderly [] (rightward (own ++ arriving) node) r) :
      Orderly own arriving node

theorem drop_wrapAll_cons (c k : Expr) (ks : List Expr) (node : Algebra) :
    drop c (wrapAll (k :: ks) node) = wrapAll (c :: k :: ks) node :=
  drop_of_not_enters (enters_filter c k _)

/-- What arrives in order: those that enter sink, the others pile up. -/
theorem arrive_inOrder {cs ks done : List Expr} {node : Algebra}
    (blocked : ∀ c ∈ cs, enters c node = true → ks = [])
    (order : cs.Pairwise fun d c => enters c node = true → enters d node = true) :
    arrive cs (wrapAll ks (absorb done node)) =
      wrapAll ((staying cs node).reverse ++ ks) (absorb (done ++ cs) node) := by
  induction cs generalizing ks done with
  | nil => simp [arrive, staying]
  | cons c cs ih =>
      rw [List.forall_mem_cons] at blocked
      rw [List.pairwise_cons] at order
      change arrive cs (drop c _) = _
      cases entered : enters c node with
      | true =>
          obtain rfl := blocked.1 entered
          rw [show drop c (wrapAll [] (absorb done node)) = wrapAll [] (absorb (done ++ [c]) node)
            from drop_absorb entered done, ih (fun _ _ _ => rfl) order.2]
          simp [staying, entered]
      | false =>
          have stays : drop c (wrapAll ks (absorb done node)) =
              wrapAll (c :: ks) (absorb done node) := by
            cases ks with
            | nil => exact drop_of_not_enters ((enters_absorb done node c).trans entered)
            | cons k ks => exact drop_wrapAll_cons c k ks _
          have none_ : ∀ d ∈ cs, enters d node = true → c :: ks = [] := fun d mem entersD => by
            rw [order.1 d mem entersD] at entered
            cases entered
          have same : absorb (done ++ c :: cs) node = absorb (done ++ cs) node := by
            rw [← absorb_filter, ← absorb_filter (done ++ cs)]
            simp [entered]
          rw [stays, ih none_ order.2, same]
          simp [staying, entered]

/-- Out of order a filter is left that could sink. -/
theorem inOrder_of_rested {cs ks done : List Expr} {node : Algebra}
    (unsplit : ∀ c ∈ cs, Unsplit c) (unsplitKs : ∀ k ∈ ks, Unsplit k)
    (plain : isFilter node = false)
    (rested : Rested [] (arrive cs (wrapAll ks (absorb done node)))) :
    (∀ c ∈ cs, enters c node = true → ks = []) ∧
      cs.Pairwise fun d c => enters c node = true → enters d node = true := by
  induction cs generalizing ks done with
  | nil => simp
  | cons c cs ih =>
      rw [List.forall_mem_cons] at unsplit
      change Rested [] (arrive cs (drop c _)) at rested
      rw [List.pairwise_cons]
      cases ks with
      | cons k ks =>
          rw [drop_wrapAll_cons] at rested
          obtain ⟨blocked, order⟩ := ih unsplit.2
            (List.forall_mem_cons.mpr ⟨unsplit.1, unsplitKs⟩) rested
          have none_ : ∀ d ∈ cs, enters d node = true → False := fun d mem entersD =>
            List.cons_ne_nil _ _ (blocked d mem entersD)
          have stays : enters c node = false := by
            have shape := @arrive_inOrder cs (c :: k :: ks) done node blocked order
            rw [shape, rested_wrapAll, rested_node] at rested
            · have := rested.1 c (by simp)
              rwa [enters_absorb] at this
            · rw [isFilter_absorb, plain]
            · intro d mem
              rw [List.mem_append, List.mem_reverse] at mem
              rcases mem with mem | mem
              · exact unsplit.2 d (List.mem_of_mem_filter mem)
              · exact (List.forall_mem_cons.mpr ⟨unsplit.1, unsplitKs⟩) d mem
          refine ⟨?_, fun d mem entersD => (none_ d mem entersD).elim, order⟩
          rw [List.forall_mem_cons]
          refine ⟨fun entersC => ?_, fun d mem entersD => (none_ d mem entersD).elim⟩
          rw [stays] at entersC
          cases entersC
      | nil =>
          refine ⟨fun _ _ _ => rfl, ?_⟩
          cases entered : enters c node with
          | true =>
              rw [show drop c (wrapAll [] (absorb done node)) =
                wrapAll [] (absorb (done ++ [c]) node) from drop_absorb entered done] at rested
              exact ⟨fun _ _ _ => rfl, (ih unsplit.2 (by simp) rested).2⟩
          | false =>
              rw [show drop c (wrapAll [] (absorb done node)) = wrapAll [c] (absorb done node)
                from drop_of_not_enters ((enters_absorb done node c).trans entered)] at rested
              obtain ⟨blocked, order⟩ := ih unsplit.2 (by simpa using unsplit.1) rested
              exact ⟨fun d mem entersD => (List.cons_ne_nil _ _ (blocked d mem entersD)).elim,
                order⟩

/-- After the pass and the arrivals every filter is at rest exactly where the conjuncts came in
order. -/
theorem rested_iff_orderly {own arriving : List Expr} (unsplitOwn : ∀ c ∈ own, Unsplit c)
    (unsplitArriving : ∀ c ∈ arriving, Unsplit c) (tree : Algebra) :
    Rested [] (arrive arriving (pushFiltersUnder own tree)) ↔ Orderly own arriving tree := by
  induction tree using sideInduction generalizing own arriving with
  | step tree left right =>
  rcases filter_or tree with ⟨e, i, rfl⟩ | plain
  · have unsplit : ∀ c ∈ own ++ splitAnd e, Unsplit c := fun c mem => by
      rw [List.mem_append] at mem
      exact mem.elim (unsplitOwn c) unsplit_of_mem
    have inner := left i rfl unsplit unsplitArriving
    rw [pushFiltersUnder, inner]
    constructor
    · exact .filter
    · intro h
      cases h with
      | filter input => exact input
      | node plain => cases plain
  · have plainSides : isFilter (pushSides tree) = false := by rw [isFilter_pushSides, plain]
    have unsplitStaying : ∀ k ∈ staying own tree, Unsplit k :=
      fun k mem => unsplitOwn k (List.mem_of_mem_filter mem)
    have empty_iff : staying own tree = [] ↔ ∀ d ∈ own, enters d tree = true := by
      unfold staying
      simp
    have ordered : InOrder own arriving tree ↔
        (∀ c ∈ arriving, enters c (pushSides tree) = true → staying own tree = []) ∧
        arriving.Pairwise fun d c =>
          enters c (pushSides tree) = true → enters d (pushSides tree) = true := by
      simp only [enters_pushSides, empty_iff]
      exact ⟨fun h => ⟨h.own, h.arriving⟩, fun h => ⟨h.1, h.2⟩⟩
    rw [pushFiltersUnder_eq plain]
    have sides (order : InOrder own arriving tree) :
        Rested [] (arrive arriving (wrapAll (staying own tree) (absorb own (pushSides tree)))) ↔
          (∀ l, leftOf tree = some l → Orderly [] (leftward (own ++ arriving) tree) l) ∧
          ∀ r, rightOf tree = some r → Orderly [] (rightward (own ++ arriving) tree) r := by
      obtain ⟨blocked, pairs⟩ := ordered.mp order
      have nothing : ∀ c ∈ ([] : List Expr), Unsplit c := by simp
      have unsplitAll : ∀ c ∈ own ++ arriving, Unsplit c := fun c mem =>
        (List.mem_append.mp mem).elim (unsplitOwn c) (unsplitArriving c)
      rw [arrive_inOrder blocked pairs, rested_wrapAll, rested_node]
      · have stay : ∀ c ∈ [] ++ ((staying arriving (pushSides tree)).reverse ++ staying own tree),
            enters c (absorb (own ++ arriving) (pushSides tree)) = false := by
          intro c mem
          rw [List.nil_append, List.mem_append, List.mem_reverse] at mem
          rw [enters_absorb]
          rcases mem with mem | mem
          · simpa using (List.mem_filter.mp mem).2
          · rw [enters_pushSides]
            simpa using (List.mem_filter.mp mem).2
        rw [and_iff_right stay]
        refine and_congr ?_ ?_
        · simp only [leftOf_absorb, leftward_pushSides, leftOf_pushSides, Option.map_map,
            Option.map_eq_some_iff, Function.comp_apply, forall_exists_index, and_imp,
            forall_apply_eq_imp_iff₂]
          exact forall₂_congr fun l side => left l side nothing
            fun c mem => unsplitAll c (List.mem_of_mem_filter mem)
        · simp only [rightOf_absorb, rightward_pushSides, rightOf_pushSides, Option.map_map,
            Option.map_eq_some_iff, Function.comp_apply, forall_exists_index, and_imp,
            forall_apply_eq_imp_iff₂]
          exact forall₂_congr fun r side => right r side nothing
            fun c mem => unsplitAll c (List.mem_of_mem_filter mem)
      · rw [isFilter_absorb, plainSides]
      · intro k mem
        rw [List.mem_append, List.mem_reverse] at mem
        exact mem.elim (fun mem => unsplitArriving k (List.mem_of_mem_filter mem))
          (unsplitStaying k)
    constructor
    · intro rested
      have order := ordered.mpr (inOrder_of_rested unsplitArriving unsplitStaying plainSides rested)
      obtain ⟨l, r⟩ := (sides order).mp rested
      exact .node plain order l r
    · intro h
      cases h with
      | filter => cases plain
      | node _ order l r => exact (sides order).mpr ⟨l, r⟩

end Graphy.Sparql
