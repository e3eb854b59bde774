import Graphy.Misc.Clients
import Mathlib.Data.List.Induction
import Mathlib.Order.Extension.Linear

/-!
# Conflicts of requests

A state is seen as a set of cells: a write puts some cells in and takes some out, and what a
request plans depends on the cells it reads only.  Two finished requests conflict when they
must stay in order, because they leave one cell differently, or because one reads a cell the
other writes.  Requests whose conflicts form no cycle leave what they leave one after
another, in an order that respects the conflicts.
-/

namespace Graphy

namespace Service

variable {ι σ δ κ : Type*}

/-- The cells requests read and write. -/
structure Footprint (sv : Service ι σ δ) (κ : Type*) where
  cells : σ → Set κ
  /-- What a write leaves of a cell it names. -/
  writes : δ → κ → Option Bool
  reads : ι → Set κ
  apply : ∀ w s k, sv.accepts w →
    (k ∈ cells (sv.apply w s) ↔ (writes w k).elim (k ∈ cells s) fun b => b = true)
  plans : ∀ c s s' plan, (∀ k ∈ reads c, k ∈ cells s ↔ k ∈ cells s') → sv.plans c s plan →
    sv.plans c s' plan

namespace Footprint

variable {sv : Service ι σ δ} (f : Footprint sv κ)

/-- What a finished request left of a cell. -/
def wrote (e : Entry ι δ) (k : κ) : Option Bool := e.plan.bind fun w => f.writes w k

/-- What has to stay in order of two finished requests, each with its place: the second
leaves a cell differently, reads what the first wrote, or wrote later than its snapshot what
the first read. -/
def Precedes (a b : Entry ι δ × Nat) : Prop :=
  (a.2 < b.2 ∧ ∃ k v v', f.wrote a.1 k = some v ∧ f.wrote b.1 k = some v' ∧ v ≠ v') ∨
    (a.2 < b.1.since ∧ ∃ k ∈ f.reads b.1.client, f.wrote a.1 k ≠ none) ∨
    (a.1.since ≤ b.2 ∧ a.2 ≠ b.2 ∧ ∃ k ∈ f.reads a.1.client, f.wrote b.1 k ≠ none)

/-- Conflicts between requests of a history. -/
def Conflict (history : List (Entry ι δ)) (a b : Entry ι δ × Nat) : Prop :=
  a ∈ history.zipIdx ∧ b ∈ history.zipIdx ∧ f.Precedes a b

/-- The conflicts form no cycle. -/
def Acyclic (history : List (Entry ι δ)) : Prop :=
  ∀ a, ¬ Relation.TransGen (f.Conflict history) a a

/-! ## Last writes -/

/-- A cell after some requests is as the last one that names it leaves it. -/
theorem mem_after {l : List (Entry ι δ)} (accepted : ∀ e ∈ l, ∀ w, e.plan = some w → sv.accepts w)
    (s : σ) (k : κ) : k ∈ f.cells (sv.after s l) ↔
      ((l.filterMap fun e => f.wrote e k).getLast?).elim (k ∈ f.cells s) fun b => b = true := by
  induction l using List.reverseRecOn with
  | nil => rfl
  | append_singleton l e ih =>
      have before := ih fun d mem => accepted d (List.mem_append_left _ mem)
      have one : sv.after s (l ++ [e]) = sv.effect e.plan (sv.after s l) := after_append sv s l [e]
      rw [one, List.filterMap_append]
      cases plan : e.plan with
      | none =>
          have nothing : f.wrote e k = none := by simp [wrote, plan]
          simp only [List.filterMap_cons, nothing, List.filterMap_nil, List.append_nil]
          exact before
      | some w =>
          have value : f.wrote e k = f.writes w k := by simp [wrote, plan]
          refine (f.apply w (sv.after s l) k (accepted e (by simp) w plan)).trans ?_
          cases written : f.writes w k with
          | none =>
              simp only [List.filterMap_cons, value, written, List.filterMap_nil, List.append_nil]
              exact before
          | some b =>
              simp only [List.filterMap_cons, value, written, List.filterMap_nil,
                List.getLast?_append]
              rfl

/-- The same over requests with their places. -/
theorem mem_after_placed {l : List (Entry ι δ × Nat)}
    (accepted : ∀ x ∈ l, ∀ w, x.1.plan = some w → sv.accepts w) (s : σ) (k : κ) :
    k ∈ f.cells (sv.after s (l.map Prod.fst)) ↔
      ((l.filterMap fun x => f.wrote x.1 k).getLast?).elim (k ∈ f.cells s) fun b => b = true := by
  have all : ∀ e ∈ l.map Prod.fst, ∀ w, e.plan = some w → sv.accepts w := by
    intro e he
    obtain ⟨x, hx, rfl⟩ := List.mem_map.mp he
    exact accepted x hx
  rw [f.mem_after all, List.filterMap_map]
  rfl

/-- The last element a partial function is defined at. -/
theorem exists_last {α β : Type*} {g : α → Option β} {l : List α} {v : β}
    (h : (l.filterMap g).getLast? = some v) :
    ∃ pre x post, l = pre ++ x :: post ∧ g x = some v ∧ ∀ y ∈ post, g y = none := by
  rw [List.getLast?_filterMap, List.findSome?_eq_some_iff] at h
  obtain ⟨before, x, after, split, found, none_⟩ := h
  refine ⟨after.reverse, x, before.reverse, ?_, found, fun y mem => ?_⟩
  · rw [← List.reverse_reverse l, split]
    simp
  · exact none_ y (List.mem_reverse.mp mem)

/-- Lists with the same writers of a cell, one in order of time and one that respects the
conflicts, have the same last write. -/
theorem last_eq {k : κ} {A B : List (Entry ι δ × Nat)}
    (time : A.Pairwise fun a b => a.2 < b.2) (order : B.Pairwise fun a b => ¬ f.Precedes b a)
    (same : ∀ x, f.wrote x.1 k ≠ none → (x ∈ A ↔ x ∈ B)) :
    (A.filterMap fun x => f.wrote x.1 k).getLast? =
      (B.filterMap fun x => f.wrote x.1 k).getLast? := by
  -- without writers on one side there are none on the other
  have none_iff (L : List (Entry ι δ × Nat)) :
      (L.filterMap fun x => f.wrote x.1 k).getLast? = none ↔ ∀ x ∈ L, f.wrote x.1 k = none := by
    rw [List.getLast?_eq_none_iff, List.filterMap_eq_nil_iff]
  cases hA : (A.filterMap fun x => f.wrote x.1 k).getLast? with
  | none =>
      rw [eq_comm, none_iff]
      intro x mem
      by_contra some_
      exact some_ ((none_iff A).mp hA x ((same x some_).mpr mem))
  | some v =>
      cases hB : (B.filterMap fun x => f.wrote x.1 k).getLast? with
      | none =>
          obtain ⟨pre, x, post, rfl, found, -⟩ := exists_last hA
          have some_ : f.wrote x.1 k ≠ none := by simp [found]
          exact absurd ((none_iff B).mp hB x ((same x some_).mp (by simp))) some_
      | some v' =>
          obtain ⟨pre, x, post, rfl, found, later⟩ := exists_last hA
          obtain ⟨pre', y, post', rfl, found', later'⟩ := exists_last hB
          by_contra differ
          have values : v ≠ v' := fun eq => differ (congrArg some eq)
          have other : x ≠ y := by
            rintro rfl
            rw [found] at found'
            exact values (Option.some.inj found')
          -- the last writer in time comes earlier in the order, and they disagree
          have inB : x ∈ pre' := by
            have mem := (same x (by simp [found])).mp (by simp)
            rcases List.mem_append.mp mem with early | late
            · exact early
            · rcases List.mem_cons.mp late with eq | late
              · exact absurd eq other
              · simp [later' x late] at found
          have inA : y ∈ pre := by
            have mem := (same y (by simp [found'])).mpr (by simp)
            rcases List.mem_append.mp mem with early | late
            · exact early
            · rcases List.mem_cons.mp late with eq | late
              · exact absurd eq.symm other
              · simp [later y late] at found'
          have earlier : y.2 < x.2 := (List.pairwise_append.mp time).2.2 y inA x (by simp)
          refine (List.pairwise_append.mp order).2.2 x inB y (by simp) (Or.inl ⟨earlier, k, v', v, ?_⟩)
          exact ⟨found', found, Ne.symm values⟩

/-! ## Serial orders -/

theorem pairwise_zipIdx {α : Type*} (l : List α) (n : Nat) :
    (l.zipIdx n).Pairwise fun a b => a.2 < b.2 := by
  induction l generalizing n with
  | nil => exact .nil
  | cons a l ih =>
      rw [List.zipIdx_cons, List.pairwise_cons]
      refine ⟨?_, ih (n + 1)⟩
      rintro ⟨b, i⟩ mem
      exact (List.le_snd_of_mem_zipIdx mem)

variable {f} {init : σ} {history : List (Entry ι δ)}

/-- Places of a history are distinct. -/
theorem nodup_zipIdx {α : Type*} (l : List α) : l.zipIdx.Nodup :=
  (pairwise_zipIdx l 0).imp fun lt eq => absurd (congrArg Prod.snd eq) (Nat.ne_of_lt lt)

/-- A request planned what it would plan after the requests before it in the order. -/
theorem plans_of_order (h : sv.History init history) {pre post : List (Entry ι δ × Nat)}
    {a : Entry ι δ × Nat} (perm : (pre ++ a :: post).Perm history.zipIdx)
    (order : (pre ++ a :: post).Pairwise fun a b => ¬ f.Precedes b a) :
    sv.plans a.1.client (sv.after init (pre.map Prod.fst)) a.1.plan := by
  have inside {x : Entry ι δ × Nat} : x ∈ pre ++ a :: post ↔ x ∈ history.zipIdx := perm.mem_iff
  have mem : a ∈ history.zipIdx := inside.mp (by simp)
  have since : a.1.since ≤ a.2 := h.earlier _ _ (List.mem_zipIdx_iff_getElem?.mp mem)
  refine f.plans _ _ _ _ (fun k reads => ?_) (h.planned a.1 (List.fst_mem_of_mem_zipIdx mem))
  obtain ⟨within, following, across⟩ := List.pairwise_append.mp order
  -- the same requests wrote the cell before the snapshot and before the request
  have same (x : Entry ι δ × Nat) (writes : f.wrote x.1 k ≠ none) :
      x ∈ (history.take a.1.since).zipIdx ↔ x ∈ pre := by
    have place : x ∈ (history.take a.1.since).zipIdx ↔ x ∈ history.zipIdx ∧ x.2 < a.1.since := by
      simp only [List.mem_zipIdx_iff_getElem?, List.getElem?_take]
      by_cases lt : x.2 < a.1.since <;> simp [lt]
    rw [place]
    constructor
    · rintro ⟨there, early⟩
      rcases List.mem_append.mp (inside.mpr there) with before | later
      · exact before
      · rcases List.mem_cons.mp later with rfl | later
        · omega
        · exact absurd (Or.inr (Or.inl ⟨early, k, reads, writes⟩))
            ((List.pairwise_cons.mp following).1 x later)
    · intro before
      have there := inside.mp (List.mem_append_left _ before)
      refine ⟨there, ?_⟩
      by_contra late
      refine across x before a (by simp) (Or.inr (Or.inr ⟨by omega, fun eq => ?_, k, reads, writes⟩))
      have value := List.mem_zipIdx_iff_getElem?.mp mem
      rw [eq, List.mem_zipIdx_iff_getElem?.mp there] at value
      obtain rfl : x = a := Prod.ext (Option.some.inj value) eq.symm
      exact (List.nodup_append.mp (perm.nodup_iff.mpr (nodup_zipIdx history))).2.2 x before x
        (by simp) rfl
  have eq := f.last_eq (pairwise_zipIdx (history.take a.1.since) 0) within same
  rw [← List.zipIdx_map_fst 0 (history.take a.1.since), f.mem_after_placed ?_, eq,
    f.mem_after_placed ?_]
  · exact fun x hx => h.accepted x.1
      (List.fst_mem_of_mem_zipIdx (inside.mp (List.mem_append_left _ hx)))
  · exact fun x hx => h.accepted x.1 (List.mem_of_mem_take (List.fst_mem_of_mem_zipIdx hx))

/-- Requests executed in an order that respects the conflicts. -/
theorem serial_of_order (h : sv.History init history) {l : List (Entry ι δ × Nat)}
    (perm : l.Perm history.zipIdx) (order : l.Pairwise fun a b => ¬ f.Precedes b a) :
    sv.Serial (l.map fun x => x.1.client) init (sv.after init (l.map Prod.fst)) ∧
      f.cells (sv.after init (l.map Prod.fst)) = f.cells (sv.after init history) := by
  have accepted : ∀ x ∈ l, ∀ w, x.1.plan = some w → sv.accepts w := fun x hx =>
    h.accepted x.1 (List.fst_mem_of_mem_zipIdx (perm.mem_iff.mp hx))
  constructor
  · have rest (pre post : List (Entry ι δ × Nat)) (split : l = pre ++ post) :
        sv.Serial (post.map fun x => x.1.client) (sv.after init (pre.map Prod.fst))
          (sv.after init (l.map Prod.fst)) := by
      induction post generalizing pre with
      | nil =>
          rw [split, List.append_nil]
          exact .nil _
      | cons a post ih =>
          have planned := plans_of_order h (split ▸ perm) (split ▸ order)
          have next := ih (pre ++ [a]) (by simp [split])
          refine .cons ⟨a.1.plan, planned, accepted a ?_, rfl⟩ ?_
          · rw [split]
            simp
          · rw [List.map_append, after_append] at next
            exact next
    exact rest [] l rfl
  · ext k
    have eq := f.last_eq (k := k) (pairwise_zipIdx history 0) order
      fun x _ => perm.mem_iff.symm
    rw [f.mem_after_placed accepted, ← eq, ← f.mem_after_placed, List.zipIdx_map_fst]
    exact fun x hx => h.accepted x.1 (List.fst_mem_of_mem_zipIdx hx)

/-- Conflicts without a cycle can be put in order. -/
theorem exists_order (acyclic : f.Acyclic history) : ∃ l : List (Entry ι δ × Nat),
    l.Perm history.zipIdx ∧ l.Pairwise fun a b => ¬ f.Precedes b a := by
  classical
  have partial_ : IsPartialOrder (Entry ι δ × Nat) (Relation.ReflTransGen (f.Conflict history)) := {
    refl := fun _ => .refl
    trans := fun _ _ _ => .trans
    antisymm := fun a b ab ba => by
      rcases Relation.reflTransGen_iff_eq_or_transGen.mp ab with eq | chain
      · exact eq.symm
      · exact absurd (chain.trans_left ba) (acyclic a) }
  obtain ⟨s, linear, extends_⟩ := extend_partialOrder (Relation.ReflTransGen (f.Conflict history))
  refine ⟨history.zipIdx.mergeSort fun a b => decide (s a b), List.mergeSort_perm _ _, ?_⟩
  have sorted := @List.pairwise_mergeSort _ (fun a b => decide (s a b))
    (fun a b c ab bc => by
      simp only [decide_eq_true_eq] at ab bc ⊢
      exact trans_of s ab bc)
    (fun a b => by simpa using total_of s a b) history.zipIdx
  have inside (x : Entry ι δ × Nat) : x ∈ history.zipIdx.mergeSort (fun a b => decide (s a b)) ↔
      x ∈ history.zipIdx := (List.mergeSort_perm _ _).mem_iff
  have distinct := (List.mergeSort_perm history.zipIdx fun a b => decide (s a b)).nodup_iff.mpr
    (nodup_zipIdx history)
  refine (List.Pairwise.and sorted distinct).imp_of_mem ?_
  rintro a b ha hb ⟨le, ne⟩ precedes
  have back : s b a := extends_ _ _ (.single ⟨(inside b).mp hb, (inside a).mp ha, precedes⟩)
  exact ne (antisymm_of s (by simpa using le) back)

/-- Requests whose conflicts form no cycle leave what they leave one after another. -/
theorem serial_of_acyclic (h : sv.History init history) (acyclic : f.Acyclic history) :
    ∃ order : List ι, order.Perm (history.map Entry.client) ∧ ∃ s,
      sv.Serial order init s ∧ f.cells s = f.cells (sv.after init history) := by
  obtain ⟨l, perm, order⟩ := exists_order acyclic
  obtain ⟨serial, same⟩ := serial_of_order h perm order
  refine ⟨_, ?_, _, serial, same⟩
  have clients := perm.map fun x => x.1.client
  have all : history.zipIdx.map (fun x => x.1.client) = history.map Entry.client := by
    conv_rhs => rw [← List.zipIdx_map_fst 0 history, List.map_map]
    rfl
  rwa [all] at clients

/-- Conflicts that all lead upwards form no cycle. -/
theorem acyclic_of_rank (rank : Entry ι δ × Nat → Nat)
    (up : ∀ a b, f.Conflict history a b → rank a < rank b) : f.Acyclic history := by
  intro a cycle
  have climbs {b : Entry ι δ × Nat} (chain : Relation.TransGen (f.Conflict history) a b) :
      rank a < rank b := by
    induction chain with
    | single step => exact up _ _ step
    | tail _ step ih => exact ih.trans (up _ _ step)
  exact Nat.lt_irrefl _ (climbs cycle)

end Footprint

end Service

end Graphy
