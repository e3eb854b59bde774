import Graphy.Misc.Conflicts
import Graphy.Server.Requests
import Graphy.Store.Proofs.Open

/-!
# Concurrent write requests

`Store::apply` does to the cells of a store what its batch says, and a request plans the same
on two stores that agree on the cells it reads.  So the store is what the batches of the
finished requests leave in the order of their commits, and requests without a cycle of
conflicts leave what a serial run of them leaves.
-/

namespace Graphy

theorem View.ext {a b : View} (quads : a.quads = b.quads) (named : a.named = b.named) : a = b := by
  cases a
  cases b
  cases quads
  cases named
  rfl

/-! ## The store behind a view -/

section Store

variable [InlineCodec]

namespace Snapshot

/-- Whether the dictionaries hold a graph name. -/
def Names (snap : Snapshot) (g : Bytes) : Prop := (snap.resolveCol g .graph).isSome = true

theorem names_iff {snap : Snapshot} {g : Bytes} :
    snap.Names g ↔ (snap.base.resolveColumn g .graph).isSome = true ∨
      g ∈ (snap.delta.space .graph).terms := by
  simp only [Names, resolveCol]
  cases base : snap.base.resolveColumn g .graph with
  | some v => simp
  | none => simp [Delta.resolve, OverlaySpace.resolve, List.isSome_idxOf?]

theorem names_internCol (snap : Snapshot) (t : Bytes) (pos : TermPos) (g : Bytes) :
    (snap.internCol t pos).1.Names g ↔ snap.Names g ∨ (pos = .graph ∧ g = t) := by
  simp only [internCol]
  cases found : snap.resolveCol t pos with
  | some v =>
      refine (or_iff_left_of_imp ?_).symm
      rintro ⟨rfl, rfl⟩
      exact Option.isSome_iff_exists.mpr ⟨v, found⟩
  | none =>
      have absent : snap.delta.resolve t pos = none := by
        cases base : snap.base.resolveColumn t pos with
        | some v => simp [resolveCol, base] at found
        | none => simpa [resolveCol, base] using found
      simp only [internOverlay]
      generalize (Option.bind _ _ : Option TermId) = aliasId
      rw [names_iff, names_iff, (Delta.space_intern aliasId absent .graph).2.1, List.mem_append,
        ← or_assoc]
      by_cases same : TermPos.graph = pos
      · simp [same]
      · simp [same, Ne.symm same]

theorem names_internKey (snap : Snapshot) (q : QuadTerms) (g : Bytes) :
    (snap.internKey q).1.Names g ↔ snap.Names g ∨ q.g = some g := by
  simp only [internKey]
  cases graph : q.g with
  | none => simp [names_internCol]
  | some g' => simp [names_internCol, eq_comm]

/-- Names after planning a transaction. -/
theorem names_commitCore {snap : Snapshot} {dels adds : List QuadTerms} {carry : Carry}
    {st : PlanState} (core : commitCore snap dels adds carry = .ok st) (g : Bytes) :
    st.snap.Names g ↔ snap.Names g ∨ ∃ q ∈ adds, q.g = some g := by
  have afterDels (l : List (QuadTerms × Nat)) (st : PlanState) :
      (l.foldl PlanState.planDel st).snap = st.snap := by
    induction l generalizing st with
    | nil => rfl
    | cons del l ih =>
        rw [List.foldl_cons, ih, PlanState.planDel]
        split
        · rfl
        · split <;> rfl
  have afterAdds (l : List (QuadTerms × Nat)) (st : PlanState) :
      (l.foldl PlanState.planAdd st).snap.Names g ↔
        st.snap.Names g ∨ ∃ q ∈ l.map Prod.fst, q.g = some g := by
    induction l generalizing st with
    | nil => simp
    | cons add l ih =>
        have one : (st.planAdd add).snap = (st.snap.internKey add.1).1 := by
          simp only [PlanState.planAdd]
          split <;> rfl
        rw [List.foldl_cons, ih, one, names_internKey, List.map_cons, List.exists_mem_cons_iff,
          or_assoc]
  simp only [commitCore] at core
  cases check : (dels ++ adds).forM validateQuad with
  | error e =>
      rw [check] at core
      cases core
  | ok u =>
      rw [check] at core
      cases core
      rw [afterAdds, afterDels, List.zipIdx_map_fst]

/-- The view of a snapshot. -/
def view (snap : Snapshot) (sound : snap.Sound) : View where
  quads := snap.dataset
  named := {g | snap.Names g}
  covers := by
    rintro q ⟨k, visible, decoded⟩ g graph
    have resolved := resolveKey_of_decodeKey sound.wf.dict sound.wf.fits sound.accepted
      (sound.wf.validKey_of_containsKey visible) decoded
    simp only [resolveKey, graph, Option.bind_eq_bind, Option.bind_eq_some_iff] at resolved
    obtain ⟨-, -, -, -, -, -, v, h, -⟩ := resolved
    exact Option.isSome_iff_exists.mpr ⟨v, h⟩

/-- It applies the batch, over the quads the dictionary stores, and adds its graph names. -/
theorem applyAlone_spec {snap snap' : Snapshot} (sound : snap.Sound) {u : Update QuadTerms}
    (applied : snap.applyAlone u = .ok snap') : snap'.Sound ∧ snap'.base = snap.base ∧
      snap'.dataset = (u.map (QuadTerms.named snap.base.dict)).apply snap.dataset ∧
      ∀ g, snap'.Names g ↔ snap.Names g ∨ ∃ q ∈ u.adds, q.g = some g := by
  cases core : commitCore snap u.dels u.adds Carry.none with
  | error e =>
      simp only [applyAlone, core] at applied
      cases applied
  | ok st =>
      have names (g : Bytes) := names_commitCore core g
      obtain ⟨ext, sound', recorded, dataset⟩ :=
        recordAlone_spec sound core (Nat.lt_succ_self snap.epoch) []
      have done : snap' = if st.entries = [] then st.snap
          else st.snap.record ⟨st.entries, snap.epoch + 1, []⟩ := by
        simp only [applyAlone, core] at applied
        cases applied
        rfl
      by_cases nothing : st.entries = []
      · rw [if_pos nothing] at done
        subst done
        have none_ : Carry.none.Valid snap := fun k h => absurd rfl h
        obtain ⟨-, spec⟩ := commitCore_spec sound.wf sound.accepted none_ core
        have planned := spec.shows
        rw [PlanState.shows, spec.inv.carry_eq, Snapshot.shows_none sound.wf, nothing,
          Carry.after_nil, Snapshot.shows_none sound'.wf] at planned
        exact ⟨sound', ext.base, planned, names⟩
      · rw [if_neg nothing] at done
        subst done
        refine ⟨recorded, ext.base, dataset, fun g => Iff.trans ?_ (names g)⟩
        simp only [Names, resolveCol, Snapshot.record, Delta.resolve, Delta.space_record]

/-- It is refused exactly when a quad is invalid. -/
theorem applyAlone_ok_iff {snap : Snapshot} {u : Update QuadTerms} (sound : snap.Sound) :
    (∃ snap', snap.applyAlone u = .ok snap') ↔ (u.dels ++ u.adds).forM validateQuad = .ok () := by
  constructor
  · rintro ⟨snap', applied⟩
    cases core : commitCore snap u.dels u.adds Carry.none with
    | error e =>
        simp only [applyAlone, core] at applied
        cases applied
    | ok st => exact (commitCore_spec sound.wf sound.accepted (fun k h => absurd rfl h) core).1
  · intro valid
    obtain ⟨st, core⟩ := commitCore_of_valid snap Carry.none valid
    simp only [applyAlone, core]
    exact ⟨_, rfl⟩

end Snapshot

/-- The states of a store over a base. -/
abbrev StoreOver (base : Segment) := {snap : Snapshot // snap.Sound ∧ snap.base = base}

/-- The view of a store. -/
def storeView {base : Segment} (snap : StoreOver base) : View := snap.1.view snap.2.1

/-- Requests of clients against a store, each with the labels it mints. -/
def storeService {ι Algebra : Type} (base : Segment) (engine : Engine Algebra)
    (requests : ι → Request Algebra) (labels : ι → Labels) :
    Service ι (StoreOver base) (Update QuadTerms) where
  plans c snap plan := (requests c).plans engine (labels c) (storeView snap) plan
  accepts u := (u.dels ++ u.adds).forM validateQuad = .ok ()
  apply u snap :=
    match applied : snap.1.applyAlone u with
    | .ok snap' => ⟨snap', (Snapshot.applyAlone_spec snap.2.1 applied).1,
        (Snapshot.applyAlone_spec snap.2.1 applied).2.1.trans snap.2.2⟩
    | .error _ => snap

section Service

variable {ι Algebra : Type} {base : Segment} (engine : Engine Algebra)
  (requests : ι → Request Algebra) (labels : ι → Labels)

/-- A batch that is accepted is applied. -/
theorem storeService_apply {u : Update QuadTerms}
    (accepted : (storeService base engine requests labels).accepts u) (snap : StoreOver base) :
    (storeView ((storeService base engine requests labels).apply u snap)).quads =
        (u.map (QuadTerms.named base.dict)).apply (storeView snap).quads ∧
      ∀ g, g ∈ (storeView ((storeService base engine requests labels).apply u snap)).named ↔
        g ∈ (storeView snap).named ∨ ∃ q ∈ u.adds, q.g = some g := by
  obtain ⟨snap', applied⟩ := (Snapshot.applyAlone_ok_iff snap.2.1).mpr accepted
  obtain ⟨sound', same, dataset, names⟩ := Snapshot.applyAlone_spec snap.2.1 applied
  have there : (storeService base engine requests labels).apply u snap =
      ⟨snap', sound', same.trans snap.2.2⟩ := by
    simp only [storeService]
    split
    · rename_i other applied'
      rw [applied] at applied'
      cases applied'
      rfl
    · rename_i e refused
      rw [applied] at refused
      cases refused
  rw [there]
  rw [snap.2.2] at dataset
  exact ⟨dataset, names⟩

end Service

end Store

/-! ## What plans depend on -/

section Reads

theorem View.graph_congr {a b : View} {g : Option Bytes}
    (same : ∀ k ∈ Cell.graph g, k ∈ a.cells ↔ k ∈ b.cells) : a.graph g = b.graph g := by
  ext q
  refine and_congr_left fun graph => ?_
  exact same (.inl q) ⟨q, rfl, graph⟩

theorem View.quads_congr {a b : View}
    (same : ∀ k ∈ Cell.quadsOf fun _ => True, k ∈ a.cells ↔ k ∈ b.cells) : a.quads = b.quads :=
  Set.ext fun q => same (.inl q) ⟨q, rfl, trivial⟩

theorem View.named_congr {a b : View} {g : Option Bytes}
    (same : ∀ k ∈ Cell.name g, k ∈ a.cells ↔ k ∈ b.cells) : a.HasGraph g ↔ b.HasGraph g :=
  forall₂_congr fun iri eq => same (.inr iri) ⟨iri, eq, rfl⟩

theorem View.eq_of_cells {a b : View} (same : ∀ k ∈ (Set.univ : Set Cell), k ∈ a.cells ↔ k ∈ b.cells) :
    a = b :=
  View.ext (Set.ext fun q => same (.inl q) trivial) (Set.ext fun g => same (.inr g) trivial)

/-- A graph without a column has no quads, so its column need not be asked for. -/
theorem listsIf_hasGraph {v : View} {g : Option Bytes} {c : Prop} {l : List QuadTerms} :
    ListsIf (c ∧ v.HasGraph g) l (· ∈ v.graph g) ↔ ListsIf c l (· ∈ v.graph g) := by
  by_cases has : v.HasGraph g
  · simp [has]
  · have empty (q : QuadTerms) : q ∉ v.graph g := fun inside =>
      has fun iri eq => v.covers q inside.1 iri (inside.2.trans eq)
    have listed : Lists l (· ∈ v.graph g) ↔ l = [] := by
      constructor
      · rintro ⟨-, mem⟩
        exact List.eq_nil_iff_forall_not_mem.mpr fun q inside => empty q ((mem q).mp inside)
      · rintro rfl
        exact ⟨.nil, fun q => iff_of_false (by simp) (empty q)⟩
    simp only [ListsIf, has, and_false, false_implies, not_false_eq_true, true_implies, true_and,
      listed]
    by_cases asked : c <;> simp [asked]

variable {Algebra : Type} {engine : Engine Algebra} {labels : Labels} {a b : View}

theorem UpdateOpT.plans_of_agree {op : UpdateOpT Algebra}
    (same : ∀ k ∈ op.reads, k ∈ a.cells ↔ k ∈ b.cells) {plan : Option (Update QuadTerms)}
    (plans : executeOp engine labels a op plan) : executeOp engine labels b op plan := by
  have clear {target : GraphTargetT} {silent : Bool}
      (same : ∀ k ∈ (UpdateOpT.clear silent target : UpdateOpT Algebra).reads,
        k ∈ a.cells ↔ k ∈ b.cells)
      (plans : executeOp engine labels a (.clear silent target) plan) :
      executeOp engine labels b (.clear silent target) plan := by
    cases target with
    | default =>
        simp only [executeOp] at plans ⊢
        rwa [← View.graph_congr same]
    | named iri =>
        have graph := View.graph_congr (g := some iri) fun k mem => same k (Or.inl mem)
        have named : iri ∈ a.named ↔ iri ∈ b.named := same (.inr iri) (Or.inr ⟨iri, rfl, rfl⟩)
        simp only [executeOp] at plans ⊢
        rwa [← graph, ← named]
    | allNamed =>
        have each (q : QuadTerms) : q ∈ a.quads ∧ q.g ≠ none ↔ q ∈ b.quads ∧ q.g ≠ none :=
          and_congr_left fun some_ => same (.inl q) ⟨q, rfl, some_⟩
        simp only [executeOp] at plans ⊢
        simpa only [each] using plans
    | all =>
        simp only [executeOp] at plans ⊢
        rwa [← View.quads_congr same]
  cases op with
  | insertData quads | deleteData quads | load silent source into | create => exact plans
  | deleteWhere quads | modify within delete insert using_ pattern =>
      rwa [← View.eq_of_cells same]
  | clear silent target => exact clear same plans
  | drop silent target => exact clear same plans
  | transfer kind silent source dest =>
      simp only [executeOp] at plans ⊢
      by_cases self : source = dest
      · simpa only [self, if_true] using plans
      · simp only [if_neg self, listsIf_hasGraph] at plans ⊢
        simp only [reads, if_neg self] at same
        have graph := View.graph_congr (g := source) fun k mem => same k (Or.inl (Or.inl mem))
        have has := View.named_congr (g := source) fun k mem => same k (Or.inl (Or.inr mem))
        have target (old : List QuadTerms) : ListsIf (kind ≠ .add) old (· ∈ a.graph dest) ↔
            ListsIf (kind ≠ .add) old (· ∈ b.graph dest) := by
          by_cases add : kind = .add
          · simp [ListsIf, add]
          · rw [View.graph_congr (g := dest) fun k mem => same k (Or.inr (by rwa [if_neg add]))]
        simp only [← has, ← graph]
        simpa only [target] using plans

/-- A request plans the same on views that agree on what it reads. -/
theorem Request.plans_of_agree {request : Request Algebra}
    (same : ∀ k ∈ request.reads, k ∈ a.cells ↔ k ∈ b.cells) {plan : Option (Update QuadTerms)}
    (plans : request.plans engine labels a plan) : request.plans engine labels b plan := by
  cases request with
  | update op => exact UpdateOpT.plans_of_agree same plans
  | dataset method body =>
      simp only [Request.plans, datasetWrite] at plans ⊢
      by_cases post : method = .post
      · simpa [ListsIf, post] using plans
      · simp only [reads, if_neg post] at same
        rwa [← View.quads_congr same]
  | graph target method body =>
      simp only [Request.plans, gspWrite, listsIf_hasGraph] at plans ⊢
      by_cases post : method = .post
      · simpa [ListsIf, post] using plans
      · simp only [reads, if_neg post] at same
        rwa [← View.graph_congr same]

end Reads

section Serial

variable [InlineCodec] {ι Algebra : Type}

/-- The cells requests read and write. -/
def storeFootprint (base : Segment) (engine : Engine Algebra) (requests : ι → Request Algebra)
    (labels : ι → Labels) : (storeService base engine requests labels).Footprint Cell where
  cells snap := (storeView snap).cells
  writes := writesCell base.dict
  reads c := (requests c).reads
  apply u snap k accepted := by
    obtain ⟨quads, names⟩ := storeService_apply engine requests labels accepted snap
    cases k with
    | inl q =>
        have mem := Update.mem_apply_iff_write (u := u.map (QuadTerms.named base.dict))
          (d := (storeView snap).quads) (x := q)
        rw [← quads] at mem
        exact mem
    | inr g =>
        refine (names g).trans ?_
        simp only [writesCell]
        by_cases added : ∃ q ∈ u.adds, q.g = some g
        · rw [if_pos added]
          simp [added]
        · rw [if_neg added]
          simp only [added, or_false]
          exact Iff.rfl
  plans c snap snap' plan same plans := Request.plans_of_agree same plans

/-- Stored quads are named by themselves. -/
theorem named_of_mem_quads {base : Segment} {snap : StoreOver base} {q : QuadTerms}
    (h : q ∈ (storeView snap).quads) : q.named base.dict = q := by
  have stored := snap.2.1.named_of_mem h
  rwa [snap.2.2] at stored

/-- After a PUT its graph holds the body and what the graph gained since the snapshot. -/
theorem graph_of_put {engine : Engine Algebra} {requests : ι → Request Algebra}
    {labels : ι → Labels} {base : Segment} {view store : StoreOver base} {target : Option Bytes}
    {body : List TripleTerms} {write : Update QuadTerms}
    (planned : gspWrite (storeView view) target .put body (some write))
    (accepted : (storeService base engine requests labels).accepts write) :
    (storeView ((storeService base engine requests labels).apply write store)).graph target =
      {q | ∃ t ∈ body, q = (t.inGraph target).named base.dict} ∪
        ((storeView store).graph target \ (storeView view).graph target) := by
  obtain ⟨dels, listed, eq⟩ := planned
  rw [listsIf_hasGraph] at listed
  have removed (q : QuadTerms) := (listed.1 (Or.inl rfl)).2 q
  simp only [reduceCtorEq, false_and, if_false, Method.adds, Option.some.injEq] at eq
  subst eq
  have stored : dels.map (QuadTerms.named base.dict) = dels :=
    (List.map_congr_left fun q mem => named_of_mem_quads ((removed q).mp mem).1).trans
      (List.map_id dels)
  obtain ⟨quads, -⟩ := storeService_apply engine requests labels accepted store
  ext q
  simp only [View.graph, quads, Update.map, Update.mem_apply, stored, removed, Set.mem_ofPred_eq,
    List.map_map, List.mem_map, Function.comp_apply, Set.mem_union, Set.mem_sdiff]
  constructor
  · rintro ⟨⟨old, kept⟩ | ⟨t, mem, rfl⟩, graph⟩
    · exact Or.inr ⟨⟨old, graph⟩, kept⟩
    · exact Or.inl ⟨t, mem, rfl⟩
  · rintro (⟨t, mem, rfl⟩ | ⟨⟨old, graph⟩, kept⟩)
    · exact ⟨Or.inr ⟨t, mem, rfl⟩, rfl⟩
    · exact ⟨Or.inl ⟨old, kept⟩, graph⟩

/-- Write requests against one store.  Every run has a history: the finished requests in the
order of their commits, each planned on what an earlier part of that order left, whose batches
leave the store.  When all have finished and no cycle of conflicts between what they read and
what they write runs through a history, the dataset is that of a serial run.  A PUT leaves its
body and what its graph gained since the snapshot. -/
theorem serial_of_conflicts [DecidableEq ι] {base : Segment} (engine : Engine Algebra)
    (requests : ι → Request Algebra) (labels : ι → Labels) (init : StoreOver base)
    {w : Service.World ι (StoreOver base) (Update QuadTerms)}
    (run : Relation.ReflTransGen (storeService base engine requests labels).Step
      (Service.start init) w) :
    (∃ history, (storeService base engine requests labels).Explains init w history) ∧
      (∀ history, (storeService base engine requests labels).Explains init w history →
        (∀ c, w.pcs c = .finished) →
        (storeFootprint base engine requests labels).Acyclic history →
        ∃ order : List ι, order.Nodup ∧ (∀ c, c ∈ order) ∧ ∃ s,
          (storeService base engine requests labels).Serial order init s ∧
            s.1.dataset = w.store.1.dataset) ∧
      ∀ c view write, w.pcs c = .planned view write →
        (storeService base engine requests labels).accepts write →
        ∀ target body, requests c = .graph target .put body →
          (storeView ((storeService base engine requests labels).apply write w.store)).graph target =
            {q | ∃ t ∈ body, q = (t.inGraph target).named base.dict} ∪
              ((storeView w.store).graph target \ (storeView view).graph target) := by
  refine ⟨Service.explains_of_run run, fun history explains all acyclic => ?_,
    fun c view write at_ accepted target body request => ?_⟩
  · obtain ⟨order, perm, s, serial, same⟩ :=
      Service.Footprint.serial_of_acyclic explains.toHistory acyclic
    refine ⟨order, perm.nodup_iff.mpr explains.nodup, fun c => ?_, s, serial, ?_⟩
    · exact perm.mem_iff.mpr ((explains.done c).mpr (all c))
    · rw [explains.store] at same
      exact Set.ext fun q => Set.ext_iff.mp same (.inl q)
  · have planned := Service.plans_of_run run at_
    simp only [storeService, request, Request.plans] at planned
    exact graph_of_put planned accepted

end Serial

section Concrete

attribute [local instance] plainCodec

/-- An ephemeral store. -/
def ephemeralStore : StoreOver Segment.empty := ⟨Snapshot.ephemeral, ephemeral_sound, rfl⟩

theorem ephemeralStore_graph (g : Option Bytes) : (storeView ephemeralStore).graph g = ∅ := by
  refine Set.eq_empty_of_forall_notMem fun q inside => ?_
  have none_ : q ∈ Snapshot.ephemeral.dataset := inside.1
  rw [ephemeral_dataset] at none_
  exact none_

/-- An evaluator without solutions and a loader without documents. -/
def idleEngine : Engine Unit := ⟨fun _ _ _ rows => rows = [], fun _ document => document = none⟩

def idleLabels : Labels := ⟨id, fun _ _ _ => []⟩

/-- The object of each client's triple. -/
def letterOf (c : Bool) : UInt8 := if c then 3 else 4

/-- Send one triple to the default graph. -/
def sendLetter (method : Method) (c : Bool) : Request Unit :=
  .graph none method [⟨letterIri 1, letterIri 2, letterIri (letterOf c)⟩]

/-- What that plans on an empty store. -/
def letterWrite (c : Bool) : Update QuadTerms := ⟨[], [.ofLetters 1 2 (letterOf c)]⟩

/-- A POST and a CLEAR of the default graph. -/
def postAndClear (c : Bool) : Request Unit :=
  if c then .update (.clear false .default) else sendLetter .post false

def postAndClearWrite (c : Bool) : Update QuadTerms := if c then ⟨[], []⟩ else letterWrite false

namespace Service

variable {σ δ : Type}

/-- Where two clients stand. -/
def pair (f t : Pc σ δ) : Bool → Pc σ δ
  | false => f
  | true => t

theorem update_pair_false (f t pc : Pc σ δ) :
    Function.update (pair f t) false pc = pair pc t := by
  funext c
  cases c <;> rfl

theorem update_pair_true (f t pc : Pc σ δ) :
    Function.update (pair f t) true pc = pair f pc := by
  funext c
  cases c <;> rfl

/-- Two clients take their snapshots, plan and then commit one after the other. -/
theorem overlap {sv : Service Bool σ δ} {init : σ} {u : Bool → δ}
    (plans : ∀ c, sv.plans c init (some (u c))) (accepts : ∀ c, sv.accepts (u c)) :
    Relation.ReflTransGen sv.Step (start init)
      ⟨sv.apply (u true) (sv.apply (u false) init), fun _ => .finished⟩ := by
  let r : Pc σ δ := .read init
  let p (c : Bool) : Pc σ δ := .planned init (u c)
  have readF := @Step.snapshot _ _ _ _ sv ⟨init, pair .idle .idle⟩ false rfl
  have readT := @Step.snapshot _ _ _ _ sv ⟨init, pair r .idle⟩ true rfl
  have planF := @Step.compute _ _ _ _ sv ⟨init, pair r r⟩ false _ _ rfl (plans false)
  have planT := @Step.compute _ _ _ _ sv ⟨init, pair (p false) r⟩ true _ _ rfl (plans true)
  have commitF := @Step.commit _ _ _ _ sv ⟨init, pair (p false) (p true)⟩ false _ _ rfl
    (accepts false)
  have commitT := @Step.commit _ _ _ _ sv ⟨sv.apply (u false) init, pair .finished (p true)⟩ true
    _ _ rfl (accepts true)
  simp only [update_pair_false, update_pair_true] at readF readT planF planT commitF commitT
  have both (pc : Pc σ δ) : (fun _ : Bool => pc) = pair pc pc := by
    funext c
    cases c <;> rfl
  rw [start, both, both]
  exact Relation.ReflTransGen.refl.tail readF |>.tail readT |>.tail planF |>.tail planT
    |>.tail commitF |>.tail commitT

end Service

theorem sendLetter_plans {method : Method} (kept : method ≠ .delete) (c : Bool) :
    (sendLetter method c).plans idleEngine idleLabels (storeView ephemeralStore)
      (some (letterWrite c)) := by
  refine ⟨[], ⟨fun _ => ⟨.nil, fun q => ?_⟩, fun _ => rfl⟩, ?_⟩
  · rw [ephemeralStore_graph]
    simp
  · simp only [kept, false_and, if_false, Method.adds]
    rfl

theorem postAndClear_plans (c : Bool) :
    (postAndClear c).plans idleEngine idleLabels (storeView ephemeralStore)
      (some (postAndClearWrite c)) := by
  cases c with
  | false => exact sendLetter_plans (by decide) false
  | true =>
      refine ⟨[], ⟨.nil, fun q => ?_⟩, rfl⟩
      rw [ephemeralStore_graph]
      simp

/-- A CLEAR takes its snapshot, a POST commits, the CLEAR commits: as the CLEAR before the
POST. -/
theorem serial_of_conflicts_post_clear :
    ∃ w, Relation.ReflTransGen
        (storeService Segment.empty idleEngine postAndClear fun _ => idleLabels).Step
        (Service.start ephemeralStore) w ∧ (∀ c, w.pcs c = .finished) ∧
      ∃ order : List Bool, order.Nodup ∧ (∀ c, c ∈ order) ∧ ∃ s,
        (storeService Segment.empty idleEngine postAndClear fun _ => idleLabels).Serial order
          ephemeralStore s ∧ s.1.dataset = w.store.1.dataset := by
  let service := storeService Segment.empty idleEngine postAndClear fun _ => idleLabels
  have plans : ∀ c, service.plans c ephemeralStore (some (postAndClearWrite c)) :=
    postAndClear_plans
  have accepts : ∀ c, service.accepts (postAndClearWrite c) := by
    intro c
    cases c <;> rfl
  have run := Service.overlap plans accepts
  refine ⟨_, run, fun c => rfl, (serial_of_conflicts idleEngine postAndClear (fun _ => idleLabels)
    ephemeralStore run).2.1 [⟨false, 0, some (postAndClearWrite false)⟩,
      ⟨true, 0, some (postAndClearWrite true)⟩] ?_ (fun c => rfl) ?_⟩
  · refine ⟨⟨by simp, fun e i get => ?_, fun e mem => ?_, fun e mem u eq => ?_⟩, rfl, fun c => ?_,
      by simp, by simp⟩
    · match i with
      | 0 | 1 => cases get; simp
    · simp only [List.mem_cons, List.not_mem_nil, or_false] at mem
      rcases mem with rfl | rfl
      · exact plans false
      · exact plans true
    · simp only [List.mem_cons, List.not_mem_nil, or_false] at mem
      rcases mem with rfl | rfl <;> cases eq
      · exact accepts false
      · exact accepts true
    · cases c <;> simp
  · -- the CLEAR read what the POST wrote later, and nothing asks for the reverse
    refine Service.Footprint.acyclic_of_rank (fun a => if a.1.client then 0 else 1) ?_
    rintro a b ⟨ha, hb, precedes⟩
    have nothing (k : Cell) : writesCell Segment.empty.dict (postAndClearWrite true) k = none := by
      cases k <;> simp [writesCell, postAndClearWrite, Update.map, Update.write]
    simp only [List.zipIdx_cons, List.zipIdx_nil, List.mem_cons, List.not_mem_nil, or_false] at ha hb
    rcases ha with rfl | rfl <;> rcases hb with rfl | rfl <;>
      simp_all [Service.Footprint.Precedes, Service.Footprint.wrote, storeFootprint, postAndClear,
        sendLetter, Request.reads]

/-- Two PUTs to one graph that overlap leave both bodies, which no serial run does. -/
theorem not_serial_puts :
    ∃ w, Relation.ReflTransGen
        (storeService Segment.empty idleEngine (sendLetter .put) fun _ => idleLabels).Step
        (Service.start ephemeralStore) w ∧ (∀ c, w.pcs c = .finished) ∧
      (∀ c, QuadTerms.ofLetters 1 2 (letterOf c) ∈ w.store.1.dataset) ∧
      ∀ order s, (∀ c, c ∈ order) →
        (storeService Segment.empty idleEngine (sendLetter .put) fun _ => idleLabels).Serial order
          ephemeralStore s →
        ∃ c, QuadTerms.ofLetters 1 2 (letterOf c) ∉ s.1.dataset := by
  have plans : ∀ c, (sendLetter .put c).plans idleEngine idleLabels (storeView ephemeralStore)
      (some (letterWrite c)) := sendLetter_plans (by decide)
  let service := storeService Segment.empty idleEngine (sendLetter .put) fun _ => idleLabels
  have accepts : ∀ c, service.accepts (letterWrite c) := by
    intro c
    cases c <;> rfl
  have kept (c : Bool) : (QuadTerms.ofLetters 1 2 (letterOf c)).named Segment.empty.dict =
      .ofLetters 1 2 (letterOf c) := by
    cases c <;> decide +kernel
  refine ⟨_, Service.overlap plans accepts, fun c => rfl, fun c => ?_,
    fun order s complete serial => ?_⟩
  · have first := (storeService_apply idleEngine (sendLetter .put) (fun _ => idleLabels)
      (accepts false) ephemeralStore).1
    have second := (storeService_apply idleEngine (sendLetter .put) (fun _ => idleLabels)
      (accepts true) (service.apply (letterWrite false) ephemeralStore)).1
    change _ ∈ (storeView _).quads
    rw [second, first]
    cases c <;> simp [letterWrite, Update.map, Update.mem_apply, kept]
  · -- the last request of the serial run leaves its own body only
    rcases List.eq_nil_or_concat order with rfl | ⟨before, c, rfl⟩
    · exact absurd (complete true) (by simp)
    · rw [List.concat_eq_append] at serial
      obtain ⟨mid, -, final⟩ := Service.serial_append_iff.mp serial
      obtain ⟨plan, planned, ok, rfl⟩ := Service.serial_singleton.mp final
      refine ⟨!c, fun inside => ?_⟩
      cases plan with
      | none =>
          obtain ⟨dels, -, eq⟩ := planned
          simp at eq
      | some write =>
          have graph := @graph_of_put _ _ _ idleEngine (sendLetter .put) (fun _ => idleLabels) _
            mid mid _ _ _ planned (ok write rfl)
          have there : QuadTerms.ofLetters 1 2 (letterOf !c) ∈
              (storeView (service.effect (some write) mid)).graph none := ⟨inside, rfl⟩
          simp only [Service.effect] at there
          rw [graph, sdiff_self] at there
          obtain ⟨t, mem, eq⟩ | none_ := there
          · obtain rfl := List.mem_singleton.mp mem
            have same : (QuadTerms.ofLetters 1 2 (letterOf c)).named Segment.empty.dict =
                .ofLetters 1 2 (letterOf !c) := eq.symm
            rw [kept] at same
            cases c <;> exact absurd same (by decide)
          · exact none_

end Concrete

end Graphy
