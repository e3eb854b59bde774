import Mathlib.Data.List.Induction
import Mathlib.Data.List.Sort
import Mathlib.Data.Prod.Lex

/-!
# First-seen order

The first element of each key, groups of a list in the order their keys are first seen, and
stable sorting.  Sorting by a rank that follows the first-seen order of a key, and by something
else within it, sorts within the groups.
-/

namespace Graphy

variable {α β κ ι : Type}

/-! ## First elements -/

section Firsts

variable [DecidableEq κ] [DecidableEq ι]

/-- The first element of each key. -/
@[grind =] def firsts (key : α → κ) : List α → List α
  | [] => []
  | x :: xs => x :: (firsts key xs).filter fun y => key y ≠ key x

variable {key : α → κ}

theorem firsts_sublist (key : α → κ) (xs : List α) : (firsts key xs).Sublist xs := by
  induction xs with
  | nil => exact List.Sublist.refl _
  | cons x xs ih => exact (List.filter_sublist.trans ih).cons_cons x

theorem mem_of_mem_firsts {x : α} {xs : List α} (first : x ∈ firsts key xs) : x ∈ xs :=
  (firsts_sublist key xs).subset first

theorem mem_map_firsts {k : κ} {xs : List α} : k ∈ (firsts key xs).map key ↔ k ∈ xs.map key := by
  induction xs with
  | nil => exact Iff.rfl
  | cons x xs ih =>
      rw [firsts, List.map_cons, List.map_cons, List.mem_cons, List.mem_cons, ← ih]
      simp only [List.mem_map, List.mem_filter, decide_eq_true_eq]
      by_cases same : k = key x
      · exact iff_of_true (Or.inl same) (Or.inl same)
      · constructor
        · rintro (here | ⟨y, ⟨first, -⟩, rfl⟩)
          · exact absurd here same
          · exact Or.inr ⟨y, first, rfl⟩
        · rintro (here | ⟨y, first, rfl⟩)
          · exact absurd here same
          · exact Or.inr ⟨y, ⟨first, same⟩, rfl⟩

theorem firsts_append (xs : List α) (x : α) :
    firsts key (xs ++ [x]) = if key x ∈ xs.map key then firsts key xs else firsts key xs ++ [x] := by
  induction xs with
  | nil => rfl
  | cons y xs ih =>
      rw [List.cons_append, firsts, ih, List.map_cons, firsts]
      by_cases same : key x = key y
      · rw [if_pos (List.mem_cons.mpr (Or.inl same))]
        split
        · rfl
        · rw [List.filter_append, List.filter_cons_of_neg (by simpa using same), List.filter_nil,
            List.append_nil]
      · by_cases later : key x ∈ xs.map key
        · rw [if_pos later, if_pos (List.mem_cons_of_mem _ later)]
        · rw [if_neg later, if_neg fun member => (List.mem_cons.mp member).elim same later,
            List.filter_append, List.filter_cons_of_pos (by simpa using same), List.filter_nil,
            List.cons_append]

/-- Keys that tell the same elements apart have the same first elements. -/
theorem firsts_congr {key' : α → ι} {xs : List α}
    (same : ∀ x ∈ xs, ∀ y ∈ xs, key x = key y ↔ key' x = key' y) :
    firsts key xs = firsts key' xs := by
  induction xs with
  | nil => rfl
  | cons x xs ih =>
      rw [firsts, firsts, ih fun y hy z hz =>
        same y (List.mem_cons_of_mem x hy) z (List.mem_cons_of_mem x hz)]
      congr 1
      refine List.filter_congr fun y member => ?_
      have told := same y (List.mem_cons_of_mem x (mem_of_mem_firsts member)) x List.mem_cons_self
      simp only [ne_eq, told]

theorem firsts_filter {p : α → Bool} {xs : List α}
    (whole : ∀ x ∈ xs, ∀ y ∈ xs, key x = key y → p x = p y) :
    firsts key (xs.filter p) = (firsts key xs).filter p := by
  induction xs with
  | nil => rfl
  | cons x xs ih =>
      have rest := ih fun y hy z hz =>
        whole y (List.mem_cons_of_mem x hy) z (List.mem_cons_of_mem x hz)
      by_cases inside : p x = true
      · rw [List.filter_cons_of_pos inside, firsts, firsts, List.filter_cons_of_pos inside, rest,
          List.filter_filter, List.filter_filter]
        congr 1
        exact List.filter_congr fun y _ => Bool.and_comm _ _
      · rw [List.filter_cons_of_neg inside, rest, firsts, List.filter_cons_of_neg inside,
          List.filter_filter]
        refine List.filter_congr fun y member => ?_
        have told := whole y (List.mem_cons_of_mem x (mem_of_mem_firsts member)) x
          List.mem_cons_self
        by_cases same : key y = key x
        · rw [told same, Bool.eq_false_iff.mpr inside, Bool.false_and]
        · simp only [ne_eq, same, not_false_eq_true, decide_true, Bool.and_true]

theorem firsts_map (key : α → κ) (f : β → α) (xs : List β) :
    firsts key (xs.map f) = (firsts (fun x => key (f x)) xs).map f := by
  induction xs with
  | nil => rfl
  | cons x xs ih =>
      rw [List.map_cons, firsts, ih, firsts, List.map_cons, List.filter_map]
      rfl

/-- Dropping what a finer key repeats drops no first element. -/
theorem firsts_firsts {finer : α → ι} (refines : ∀ x y, finer x = finer y → key x = key y)
    (xs : List α) : firsts key (firsts finer xs) = firsts key xs := by
  induction xs with
  | nil => rfl
  | cons x xs ih =>
      -- What the finer key drops after `x` has the key of `x`.
      have dropped : ∀ l : List α,
          (firsts key (l.filter fun y => finer y ≠ finer x)).filter (fun y => key y ≠ key x)
            = (firsts key l).filter fun y => key y ≠ key x := by
        intro l
        induction l with
        | nil => rfl
        | cons y l ihl =>
            by_cases same : finer y = finer x
            · rw [List.filter_cons_of_neg (by simpa using same), ihl, firsts,
                List.filter_cons_of_neg (by simpa using refines y x same), List.filter_filter]
              refine List.filter_congr fun z _ => ?_
              rw [refines y x same, Bool.and_self]
            · rw [List.filter_cons_of_pos (by simpa using same), firsts, firsts]
              rw [List.filter_cons, List.filter_cons, List.filter_filter, List.filter_filter]
              have inner := congrArg (List.filter fun z => decide (key z ≠ key y)) ihl
              rw [List.filter_filter, List.filter_filter] at inner
              simp only [Bool.and_comm] at inner ⊢
              rw [inner]
      rw [firsts, firsts, dropped, ih, firsts]

theorem length_firsts_le {finer : α → ι} (refines : ∀ x y, finer x = finer y → key x = key y)
    (xs : List α) : (firsts key xs).length ≤ (firsts finer xs).length := by
  rw [← firsts_firsts refines]
  exact (firsts_sublist key _).length_le

theorem firsts_grow (xs ys : List α) : firsts key xs <+: firsts key (xs ++ ys) := by
  induction ys using List.reverseRecOn with
  | nil => exact ⟨[], by rw [List.append_nil, List.append_nil]⟩
  | append_singleton ys y ih =>
      rw [← List.append_assoc, firsts_append]
      split
      · exact ih
      · exact ih.trans (List.prefix_append _ _)

end Firsts

/-! ## Groups -/

section Groups

variable [DecidableEq κ] [DecidableEq ι]

/-- The elements key by key, each group treated on its own. -/
def grouped (key : α → κ) (f : List α → List α) (xs : List α) : List α :=
  (firsts key xs).flatMap fun x => f (xs.filter fun y => key y = key x)

theorem grouped_map (key : α → κ) (h : β → α) {f : List β → List β} {f' : List α → List α}
    (same : ∀ ys, (f ys).map h = f' (ys.map h)) (xs : List β) :
    (grouped (fun x => key (h x)) f xs).map h = grouped key f' (xs.map h) := by
  rw [grouped, grouped, firsts_map, List.map_flatMap, List.flatMap_map]
  congr 1
  funext x
  rw [same, List.filter_map]
  rfl

/-- Keys that tell the same elements apart have the same groups. -/
theorem grouped_congr {key : α → κ} {key' : α → ι} {f : List α → List α} {xs : List α}
    (same : ∀ x ∈ xs, ∀ y ∈ xs, key x = key y ↔ key' x = key' y) :
    grouped key f xs = grouped key' f xs := by
  rw [grouped, grouped, firsts_congr same]
  refine List.flatMap_congr fun x first => ?_
  congr 1
  refine List.filter_congr fun y member => ?_
  exact decide_eq_decide.mpr (same y member x (mem_of_mem_firsts first))

/-- Ranks tell the keys of a list apart, and ascend in the order the keys are first seen. -/
structure Ranked (key : α → κ) (rank : α → Nat) (xs : List α) : Prop where
  told : ∀ x ∈ xs, ∀ y ∈ xs, key x = key y ↔ rank x = rank y
  ascending : (firsts key xs).Pairwise fun x y => rank x < rank y

namespace Ranked

variable {key : α → κ} {rank : α → Nat} {xs : List α}

theorem nil : Ranked key rank [] where
  told _ member := absurd member List.not_mem_nil
  ascending := List.Pairwise.nil

/-- An element with the key and the rank of one before it. -/
theorem concat_seen (ranked : Ranked key rank xs) {x z : α} (seen : z ∈ xs) (keys : key z = key x)
    (ranks : rank z = rank x) : Ranked key rank (xs ++ [x]) where
  told := by
    -- The new element may be read as the old one.
    have back : ∀ y ∈ xs ++ [x], ∃ y' ∈ xs, key y' = key y ∧ rank y' = rank y := by
      intro y member
      rcases List.mem_append.mp member with old | new
      · exact ⟨y, old, rfl, rfl⟩
      · rw [List.mem_singleton.mp new]
        exact ⟨z, seen, keys, ranks⟩
    intro y hy w hw
    obtain ⟨y', hy', key_y, rank_y⟩ := back y hy
    obtain ⟨w', hw', key_w, rank_w⟩ := back w hw
    rw [← key_y, ← rank_y, ← key_w, ← rank_w]
    exact ranked.told y' hy' w' hw'
  ascending := by
    rw [firsts_append, if_pos (List.mem_map.mpr ⟨z, seen, keys⟩)]
    exact ranked.ascending

/-- An element of a new key with a rank above all before it. -/
theorem concat_new (ranked : Ranked key rank xs) {x : α} (new : ∀ y ∈ xs, key y ≠ key x)
    (above : ∀ y ∈ xs, rank y < rank x) : Ranked key rank (xs ++ [x]) where
  told := by
    intro y hy z hz
    rcases List.mem_append.mp hy with hy | hy <;> rcases List.mem_append.mp hz with hz | hz
    · exact ranked.told y hy z hz
    · rw [List.mem_singleton.mp hz]
      exact iff_of_false (new y hy) (above y hy).ne
    · rw [List.mem_singleton.mp hy]
      exact iff_of_false (new z hz).symm (above z hz).ne'
    · rw [List.mem_singleton.mp hy, List.mem_singleton.mp hz]
      exact iff_of_true rfl rfl
  ascending := by
    have absent : key x ∉ xs.map key := fun member => by
      obtain ⟨y, hy, same⟩ := List.mem_map.mp member
      exact new y hy same
    rw [firsts_append, if_neg absent, List.pairwise_append]
    refine ⟨ranked.ascending, List.pairwise_singleton _ x, fun y hy z hz => ?_⟩
    rw [List.mem_singleton.mp hz]
    exact above y (mem_of_mem_firsts hy)

/-- Ranks within a group. -/
theorem filter {outer : α → ι} (ranked : Ranked (fun x => (outer x, key x)) rank xs) (k : ι) :
    Ranked key rank (xs.filter fun x => outer x = k) := by
  have inside : ∀ x ∈ xs.filter (fun x => outer x = k), x ∈ xs ∧ outer x = k := fun x member => by
    simpa using member
  have keys : ∀ x ∈ xs.filter (fun x => outer x = k), ∀ y ∈ xs.filter (fun x => outer x = k),
      key x = key y ↔ (outer x, key x) = (outer y, key y) := by
    intro x hx y hy
    rw [Prod.mk.injEq, (inside x hx).2, (inside y hy).2]
    exact (and_iff_right rfl).symm
  constructor
  · intro x hx y hy
    rw [keys x hx y hy]
    exact ranked.told x (inside x hx).1 y (inside y hy).1
  · rw [firsts_congr keys, firsts_filter]
    · exact ranked.ascending.sublist List.filter_sublist
    · intro x _ y _ same
      have outer_eq : outer x = outer y := congrArg Prod.fst same
      rw [outer_eq]

end Ranked

end Groups

/-! ## Stable sorting -/

section Stable

variable [LinearOrder κ]

/-- The elements of `xs` by rank, those of one rank in the order they had. -/
structure StablySorted (rank : α → κ) (xs l : List α) : Prop where
  sorted : l.Pairwise fun x y => rank x ≤ rank y
  kept : ∀ r, l.filter (fun x => rank x = r) = xs.filter fun x => rank x = r

namespace StablySorted

variable {rank : α → κ} {xs l l' : List α}

theorem mem_iff (stable : StablySorted rank xs l) {x : α} : x ∈ l ↔ x ∈ xs := by
  have same := congrArg (x ∈ ·) (stable.kept (rank x))
  simpa using same

/-- There is one way to sort stably. -/
theorem unique (stable : StablySorted rank xs l) (stable' : StablySorted rank xs l') : l = l' := by
  have same : ∀ r, l.filter (fun x => rank x = r) = l'.filter fun x => rank x = r := fun r =>
    (stable.kept r).trans (stable'.kept r).symm
  have ordered := stable.sorted
  have ordered' := stable'.sorted
  clear stable stable'
  induction l generalizing l' with
  | nil =>
      refine (List.eq_nil_iff_forall_not_mem.mpr fun x member => ?_).symm
      have here : x ∈ l'.filter fun y => rank y = rank x := by simpa using member
      rw [← same] at here
      exact List.not_mem_nil here
  | cons a l ih =>
      have member : ∀ x, x ∈ a :: l ↔ x ∈ l' := fun x => by
        have both := congrArg (x ∈ ·) (same (rank x))
        simpa using both
      cases l' with
      | nil => exact absurd ((member a).mp List.mem_cons_self) List.not_mem_nil
      | cons b l' =>
          rw [List.pairwise_cons] at ordered ordered'
          have down : ∀ x ∈ a :: l, rank a ≤ rank x := fun x hx =>
            (List.mem_cons.mp hx).elim (fun h => h ▸ le_refl _) (ordered.1 x)
          have down' : ∀ x ∈ b :: l', rank b ≤ rank x := fun x hx =>
            (List.mem_cons.mp hx).elim (fun h => h ▸ le_refl _) (ordered'.1 x)
          have level : rank a = rank b :=
            le_antisymm (down b ((member b).mpr List.mem_cons_self))
              (down' a ((member a).mp List.mem_cons_self))
          have first := same (rank a)
          rw [List.filter_cons_of_pos (by simp), List.filter_cons_of_pos (by simp [level])] at first
          obtain ⟨rfl, -⟩ := List.cons_eq_cons.mp first
          rw [ih (fun r => ?_) ordered.2 ordered'.2]
          have rest := same r
          by_cases here : rank a = r
          · rwa [List.filter_cons_of_pos (by simpa using here),
              List.filter_cons_of_pos (by simpa using here), List.cons_inj_right] at rest
          · rwa [List.filter_cons_of_neg (by simpa using here),
              List.filter_cons_of_neg (by simpa using here)] at rest

theorem insertionSort (rank : α → κ) (xs : List α) :
    StablySorted rank xs (xs.insertionSort fun x y => rank x ≤ rank y) := by
  have : Std.Total fun x y : α => rank x ≤ rank y := ⟨fun x y => le_total (rank x) (rank y)⟩
  have : IsTrans α fun x y => rank x ≤ rank y := ⟨fun x y z => le_trans⟩
  refine ⟨List.pairwise_insertionSort _ xs, fun r => ?_⟩
  have level : (xs.filter fun x => rank x = r).Pairwise fun x y => rank x ≤ rank y := by
    refine List.pairwise_of_forall_mem_list fun x hx y hy => ?_
    rw [List.mem_filter, decide_eq_true_eq] at hx hy
    exact (hx.2.trans hy.2.symm).le
  have kept := (List.sublist_insertionSort level List.filter_sublist).filter fun x => rank x = r
  rw [List.filter_filter] at kept
  simp only [Bool.and_self] at kept
  refine (kept.eq_of_length ?_).symm
  exact ((List.perm_insertionSort _ xs).filter _).length_eq.symm

theorem of_unit {outer : α → Nat}
    (stable : StablySorted (fun x => toLex (outer x, ())) xs l) : StablySorted outer xs l where
  sorted := stable.sorted.imp fun le => by
    rcases Prod.Lex.toLex_le_toLex.mp le with lt | ⟨same, -⟩
    · exact lt.le
    · exact same.le
  kept r := by
    have told : ∀ x, toLex (outer x, ()) = toLex (r, ()) ↔ outer x = r := fun x => by
      rw [toLex_inj, Prod.mk.injEq, and_iff_left rfl]
    simpa only [told] using stable.kept (toLex (r, ()))

theorem refl : StablySorted (fun _ => ()) xs xs where
  sorted := List.pairwise_of_forall_mem_list fun _ _ _ _ => le_refl _
  kept _ := rfl

/-- Of the places of ascending ranks, at most one has a given rank. -/
theorem flatMap_rank {outer : α → Nat} (ascending : l.Pairwise fun x y => outer x < outer y)
    (i : Nat) (out : List β) :
    l.flatMap (fun x => if outer x = i then out else []) = if i ∈ l.map outer then out else [] := by
  induction l with
  | nil => rfl
  | cons x l ih =>
      rw [List.pairwise_cons] at ascending
      rw [List.flatMap_cons, ih ascending.2, List.map_cons]
      by_cases here : outer x = i
      · have later : i ∉ l.map outer := fun member => by
          obtain ⟨y, hy, rfl⟩ := List.mem_map.mp member
          exact (ascending.1 y hy).ne here
        rw [if_pos here, if_neg later, List.append_nil, if_pos (by simp [here])]
      · rw [if_neg here, List.nil_append]
        simp only [List.mem_cons, Ne.symm here, false_or]

/-- Groups in the order of their ranks, each sorted, are sorted by both ranks. -/
theorem grouped [DecidableEq ι] {key : α → ι} {outer : α → Nat} {f : List α → List α}
    (ranked : Ranked key outer xs)
    (stable : ∀ x ∈ xs, StablySorted rank (xs.filter fun y => key y = key x)
      (f (xs.filter fun y => key y = key x))) :
    StablySorted (fun x => toLex (outer x, rank x)) xs (Graphy.grouped key f xs) := by
  have inside : ∀ x ∈ firsts key xs, ∀ y ∈ f (xs.filter fun y => key y = key x),
      y ∈ xs ∧ outer y = outer x := by
    intro x first y member
    have here := (stable x (mem_of_mem_firsts first)).mem_iff.mp member
    rw [List.mem_filter, decide_eq_true_eq] at here
    exact ⟨here.1, (ranked.told y here.1 x (mem_of_mem_firsts first)).mp here.2⟩
  constructor
  · rw [Graphy.grouped, List.pairwise_flatMap]
    refine ⟨fun x first => ?_, ?_⟩
    · refine (stable x (mem_of_mem_firsts first)).sorted.imp_of_mem fun hy hz le => ?_
      rw [Prod.Lex.toLex_le_toLex, (inside x first _ hy).2, (inside x first _ hz).2]
      exact Or.inr ⟨rfl, le⟩
    · refine ranked.ascending.imp_of_mem fun hx hy lt y hy' z hz' => ?_
      rw [Prod.Lex.toLex_le_toLex, (inside _ hx y hy').2, (inside _ hy z hz').2]
      exact Or.inl lt
  · intro r
    obtain ⟨i, r', rfl⟩ : ∃ i r', r = toLex (i, r') := ⟨(ofLex r).1, (ofLex r).2, rfl⟩
    have pair : ∀ x, toLex (outer x, rank x) = toLex (i, r') ↔ outer x = i ∧ rank x = r' :=
      fun x => by rw [toLex_inj, Prod.mk.injEq]
    have piece : ∀ x ∈ firsts key xs,
        ((f (xs.filter fun y => key y = key x)).filter fun y =>
          toLex (outer y, rank y) = toLex (i, r')) =
        if outer x = i then xs.filter fun y => toLex (outer y, rank y) = toLex (i, r') else [] := by
      intro x first
      by_cases here : outer x = i
      · have inner := (stable x (mem_of_mem_firsts first)).kept r'
        rw [if_pos here]
        calc (f (xs.filter fun y => key y = key x)).filter (fun y =>
              toLex (outer y, rank y) = toLex (i, r'))
            = (f (xs.filter fun y => key y = key x)).filter (fun y => rank y = r') := by
              refine List.filter_congr fun y member => ?_
              refine decide_eq_decide.mpr ((pair y).trans ?_)
              exact and_iff_right ((inside x first y member).2.trans here)
          _ = (xs.filter fun y => key y = key x).filter (fun y => rank y = r') := inner
          _ = xs.filter fun y => toLex (outer y, rank y) = toLex (i, r') := by
              rw [List.filter_filter]
              refine List.filter_congr fun y member => ?_
              simp only [pair, ranked.told y member x (mem_of_mem_firsts first), here,
                Bool.decide_and, Bool.and_comm]
      · rw [if_neg here, List.filter_eq_nil_iff]
        intro y member
        rw [decide_eq_true_eq, pair, (inside x first y member).2]
        exact fun both => here both.1
    rw [Graphy.grouped, List.filter_flatMap, List.flatMap_congr piece,
      flatMap_rank ranked.ascending]
    split
    case isTrue => rfl
    case isFalse absent =>
      -- An element of that rank would have a first one of its key before it.
      refine (List.filter_eq_nil_iff.mpr fun y member => ?_).symm
      rw [decide_eq_true_eq, pair]
      rintro ⟨here, -⟩
      have first_of_key : key y ∈ (firsts key xs).map key :=
        mem_map_firsts.mpr (List.mem_map_of_mem member)
      obtain ⟨x, first, same⟩ := List.mem_map.mp first_of_key
      refine absent (List.mem_map.mpr ⟨x, first, ?_⟩)
      rw [← here]
      exact (ranked.told x (mem_of_mem_firsts first) y member).mp same

end StablySorted

end Stable

end Graphy
