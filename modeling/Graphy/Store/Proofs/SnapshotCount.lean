import Graphy.Store.Proofs.Count
import Graphy.Store.Proofs.DeltaAgreement

/-!
# Counts in a snapshot

The count of a pattern is the number of visible quads that match it, unless the base
count saw phantom quads of the P-accessor; the estimate is never below the count.
-/

namespace Graphy

/-! ## The estimate -/

theorem length_le_sum {α : Type} {w : α → Nat} {l : List α} (h : ∀ a ∈ l, 0 < w a) :
    l.length ≤ (l.map w).sum := by
  induction l with
  | nil => exact le_refl _
  | cons a l ih =>
      have first := h a List.mem_cons_self
      have rest := ih fun b mem => h b (List.mem_cons_of_mem _ mem)
      rw [List.length_cons, List.map_cons, List.sum_cons]
      omega

namespace Delta

/-- A collected range is no longer than its estimate. -/
theorem length_collectRange_le {d : Delta} (coh : d.Coherent) (counted : d.Counted) {order : Order}
    (covered : (d.index order).isSome = true) (pat : Pattern) (epoch : Nat) :
    ∃ n, d.estimateRange order pat = some n ∧ (d.collectRange order pat epoch).length ≤ n := by
  obtain ⟨m, index⟩ := Option.isSome_iff_exists.mp covered
  have collected : (d.collectRange order pat epoch).length =
      (matchingEntries order pat epoch m).length := by
    rw [collectRange_eq index]
    split
    · exact List.length_insertionSort _ _
    · rfl
  have admitted : (matchingEntries order pat epoch m).length ≤
      (m.range (rangePlan order pat).lo (rangePlan order pat).hi).countP fun e =>
        (rangePlan order pat).admits e.1 := by
    rw [matchingEntries, List.length_filterMap_eq_countP]
    refine List.countP_mono_left fun e _ some_ => ?_
    split at some_
    · assumption
    · cases some_
  refine ⟨_, by rw [estimateRange, index, Option.map_some], ?_⟩
  rw [collected]
  simp only
  split
  · -- every entry of the index has an event
    have entries : m.entries.length ≤ (m.entries.map fun c => c.2.length).sum := by
      refine length_le_sum fun c mem => ?_
      have get := OrderedMap.mem_entries_iff.mp (show (c.1, c.2) ∈ m.entries from mem)
      have some_ := coh.noEmpty _ (mem_of_index index) c.1
      rw [List.length_pos_iff]
      intro nil
      exact some_ (nil ▸ get)
    rw [(counted.of_index coh (mem_of_index index)).1]
    exact admitted.trans (List.countP_le_length.trans
      ((List.length_filter_le _ _).trans entries))
  · exact admitted

end Delta

namespace Snapshot

/-! ## The correction of the base count -/

/-- The event adds a quad the base lacks. -/
def adds (snap : Snapshot) (e : QuadKey × DeltaKind) : Bool :=
  decide (e.2 = .add) && !snap.base.containsQuad e.1

/-- The event deletes a quad of the base. -/
def removes (snap : Snapshot) (e : QuadKey × DeltaKind) : Bool :=
  decide (e.2 = .tombstone) && snap.base.containsQuad e.1

/-- The correction never runs below zero. -/
theorem foldlM_adjust (snap : Snapshot) {changes : List (QuadKey × DeltaKind)} {n : Nat}
    (enough : changes.countP snap.removes ≤ n) : changes.foldlM snap.adjust n =
      some (n + changes.countP snap.adds - changes.countP snap.removes) := by
  induction changes generalizing n with
  | nil => rfl
  | cons e changes ih =>
      obtain ⟨q, kind⟩ := e
      rw [List.countP_cons] at enough
      rw [List.foldlM_cons, List.countP_cons, List.countP_cons]
      cases kind <;> cases inside : snap.base.containsQuad q
      case add.false =>
        simp only [adjust, inside, adds, removes] at enough ⊢
        rw [Option.bind_eq_bind, Option.bind_some, ih (by simp at enough; omega)]
        congr 1
        simp
        omega
      case tombstone.true =>
        simp only [adjust, inside, adds, removes] at enough ⊢
        simp only [decide_true, Bool.and_self, if_true] at enough
        rw [checkedSub_eq (by omega), Option.bind_eq_bind, Option.bind_some, ih (by omega)]
        congr 1
        simp
        omega
      all_goals
        simp only [adjust, inside, adds, removes] at enough ⊢
        rw [Option.bind_eq_bind, Option.bind_some, ih (by simpa using enough)]
        simp

variable [InlineCodec]

/-- The matching quads that the delta decides one way. -/
theorem WF.decided_spec {snap : Snapshot} (wf : snap.WF) {order : Order}
    (covered : (snap.delta.index order).isSome = true) (pat : Pattern) (kind : DeltaKind)
    (p : QuadKey → Bool) :
    (((snap.delta.collectRange order pat snap.epoch).filter fun e =>
        decide (e.2 = kind) && p e.1).map Prod.fst).Nodup ∧
      ∀ q, q ∈ ((snap.delta.collectRange order pat snap.epoch).filter fun e =>
          decide (e.2 = kind) && p e.1).map Prod.fst ↔
        pat.Matches q ∧ snap.delta.probe q snap.epoch = some kind ∧ p q = true := by
  constructor
  · refine List.pairwise_map.mpr (((Delta.ascending_collectRange covered pat snap.epoch).filter
      _).imp ?_)
    intro a b lt same
    rw [same] at lt
    exact lt_irrefl _ lt
  · intro q
    simp [Delta.mem_collectRange wf.coherent covered, and_assoc]

/-- Visible quads and removed ones are the base's matches and the added ones. -/
theorem WF.visible_perm {snap : Snapshot} (wf : snap.WF) {order : Order}
    (covered : (snap.delta.index order).isSome = true) {pat : Pattern} {base visible : List QuadKey}
    (baseNodup : base.Nodup)
    (baseMem : ∀ q, q ∈ base ↔ pat.Matches q ∧ snap.base.containsQuad q = true)
    (nodup : visible.Nodup) (mem : ∀ q, q ∈ visible ↔ pat.Matches q ∧ snap.containsKey q = true) :
    let changes := snap.delta.collectRange order pat snap.epoch
    (visible ++ (changes.filter snap.removes).map Prod.fst).Perm
      (base ++ (changes.filter snap.adds).map Prod.fst) := by
  intro changes
  obtain ⟨removedNodup, removed⟩ := wf.decided_spec covered pat .tombstone snap.base.containsQuad
  obtain ⟨addedNodup, added⟩ := wf.decided_spec covered pat .add fun q => !snap.base.containsQuad q
  refine (List.perm_ext_iff_of_nodup ?_ ?_).mpr fun q => ?_
  · refine nodup.append removedNodup fun q shown gone => ?_
    have visible_ := ((mem q).mp shown).2
    rw [containsKey, ((removed q).mp gone).2.1] at visible_
    cases visible_
  · refine baseNodup.append addedNodup fun q inside new => ?_
    have absent := ((added q).mp new).2.2
    rw [((baseMem q).mp inside).2] at absent
    cases absent
  · rw [List.mem_append, List.mem_append, mem, baseMem]
    refine Iff.trans (or_congr_right (removed q)) (Iff.trans ?_ (or_congr_right (added q).symm))
    rw [containsKey]
    cases probe : snap.delta.probe q snap.epoch with
    | none => simp
    | some kind => cases kind <;> cases snap.base.containsQuad q <;> simp

/-- The count is the visible matches and the phantom rows the base count saw. -/
theorem WF.count_spec {snap : Snapshot} (wf : snap.WF) (counted : snap.delta.Counted)
    (covers : snap.delta.Covers snap.base.scanOrders) (pat : Pattern) :
    ∃ visible phantoms : List QuadKey, visible.Nodup ∧
      (∀ q, q ∈ visible ↔ pat.Matches q ∧ snap.containsKey q = true) ∧
      (∀ q, q ∈ phantoms ↔ pat.Matches q ∧ snap.base.bestScanOrder pat = some .pso ∧
        snap.base.PhantomKey q) ∧
      snap.count pat = some (.ok (visible.length + phantoms.length)) ∧
      ∃ estimate, snap.countEstimate pat = some (.ok estimate) ∧
        visible.length + phantoms.length ≤ estimate := by
  obtain ⟨quads, holds⟩ := wf.holds
  obtain ⟨rows, rowsNodup, rowsMem, baseCount⟩ := holds.count_spec pat
  obtain ⟨e, order, -, -, best, offered⟩ := holds.exists_best pat
  obtain ⟨bt, spo⟩ := holds.hasSpo
  have primary : Order.spo ∈ snap.base.scanOrders :=
    Segment.mem_scanOrders.mpr (Or.inl (List.mem_map.mpr ⟨_, spo, rfl⟩))
  obtain ⟨-, visible, -, -, ascending, shown⟩ := wf.scan_spec primary (covers _ primary) pat
  have nodup : visible.Nodup := ascending.imp fun lt eq => absurd (eq ▸ lt) (lt_irrefl _)
  have members (q : QuadKey) : q ∈ visible ↔ pat.Matches q ∧ snap.containsKey q = true := by
    rw [shown]
    simp
  obtain ⟨inBase, baseRows⟩ : ∃ l, l = rows.filter fun q => snap.base.containsQuad q := ⟨_, rfl⟩
  obtain ⟨phantoms, otherRows⟩ : ∃ l, l = rows.filter fun q => !snap.base.containsQuad q :=
    ⟨_, rfl⟩
  have baseMem (q : QuadKey) : q ∈ inBase ↔ pat.Matches q ∧ snap.base.containsQuad q = true := by
    rw [baseRows, List.mem_filter, rowsMem]
    constructor
    · exact fun h => ⟨h.1.1, h.2⟩
    · exact fun h => ⟨⟨h.1, Or.inl h.2⟩, h.2⟩
  have phantomMem (q : QuadKey) : q ∈ phantoms ↔ pat.Matches q ∧
      snap.base.bestScanOrder pat = some .pso ∧ snap.base.PhantomKey q := by
    rw [otherRows, List.mem_filter, rowsMem, Bool.not_eq_true']
    constructor
    · rintro ⟨⟨matches_, inside | phantom⟩, absent⟩
      · rw [absent] at inside
        cases inside
      · exact ⟨matches_, phantom⟩
    · exact fun h => ⟨⟨h.1, Or.inr h.2⟩, wf.not_containsQuad_phantom h.2.2⟩
  have parts : rows.length = inBase.length + phantoms.length := by
    rw [baseRows, otherRows, ← List.countP_eq_length_filter, ← List.countP_eq_length_filter,
      List.length_eq_countP_add_countP fun q => snap.base.containsQuad q]
    simp only [Bool.not_eq_true, Bool.decide_eq_false]
  have balance := (wf.visible_perm (covers _ offered) (baseRows ▸ rowsNodup.filter _) baseMem
    nodup members).length_eq
  rw [List.length_append, List.length_append, List.length_map, List.length_map,
    ← List.countP_eq_length_filter (p := snap.removes),
    ← List.countP_eq_length_filter (p := snap.adds)] at balance
  -- what is removed are distinct quads of the base
  have enough : (snap.delta.collectRange order pat snap.epoch).countP snap.removes ≤
      rows.length := by
    obtain ⟨once, removed⟩ := wf.decided_spec (covers _ offered) pat .tombstone
      snap.base.containsQuad
    have subset := (List.subperm_of_subset once fun q gone =>
      (baseMem q).mpr ⟨((removed q).mp gone).1, ((removed q).mp gone).2.2⟩).length_le
    rw [List.length_map, ← List.countP_eq_length_filter] at subset
    exact subset.trans (by omega)
  obtain ⟨estimate, range, bound⟩ := Delta.length_collectRange_le wf.coherent counted
    (covers _ offered) pat snap.epoch
  have few := List.countP_le_length (p := snap.adds)
    (l := snap.delta.collectRange order pat snap.epoch)
  have value : rows.length + (snap.delta.collectRange order pat snap.epoch).countP snap.adds -
      (snap.delta.collectRange order pat snap.epoch).countP snap.removes =
        visible.length + phantoms.length := by
    omega
  refine ⟨visible, phantoms, nodup, members, phantomMem, ?_, rows.length + estimate, ?_, ?_⟩
  · simp only [count, baseCount, best, snap.foldlM_adjust enough, value, Option.map_some]
  · simp only [countEstimate, baseCount, best, range, Option.map_some]
  · omega

/-- The count of a pattern is the number of quads that a scan yields in every order, and
the estimate is at least that. -/
def CountsAgree (snap : Snapshot) (pat : Pattern) : Prop :=
  ∃ n estimate, snap.count pat = some (.ok n) ∧ snap.countEstimate pat = some (.ok estimate) ∧
    n ≤ estimate ∧ ∀ order ∈ snap.base.scanOrders, ∀ capacity, 0 < capacity →
      ∃ scan batches, snap.scan pat order = .ok scan ∧ scan.Yields capacity batches ∧
        batches.flatten.length = n

/-- Rows of a scan in an order. -/
theorem WF.yields_spec {snap : Snapshot} (wf : snap.WF) {order : Order}
    (offered : order ∈ snap.base.scanOrders) (covers : snap.delta.Covers snap.base.scanOrders)
    (pat : Pattern) {capacity : Nat} (some_ : 0 < capacity) :
    ∃ scan batches, snap.scan pat order = .ok scan ∧ scan.Yields capacity batches ∧
      batches.flatten.Nodup ∧ ∀ q, q ∈ batches.flatten ↔ pat.Matches q ∧
        (snap.containsKey q = true ∨
          (order = .pso ∧ snap.base.PhantomKey q ∧ snap.delta.probe q snap.epoch = none)) := by
  obtain ⟨scan, rows, run, serves, ascending, members⟩ :=
    wf.scan_spec offered (covers _ offered) pat
  obtain ⟨batches, yields, rfl⟩ := QuadScan.yields_of_serves serves some_
  exact ⟨scan, batches, run, yields,
    ascending.imp fun lt eq => absurd (eq ▸ lt) (lt_irrefl _), members⟩

/-- Counts agree when the delta decides every phantom quad that matches and no fallback
scan saw one. -/
theorem WF.countsAgree {snap : Snapshot} (wf : snap.WF) (counted : snap.delta.Counted)
    (covers : snap.delta.Covers snap.base.scanOrders) (pat : Pattern) :
    snap.CountsAgree pat ↔ ∀ q, snap.base.PhantomKey q → pat.Matches q →
      snap.delta.probe q snap.epoch ≠ none ∧ ¬ snap.base.ByPredicate pat := by
  obtain ⟨visible, phantoms, nodup, members, phantomMem, count, estimate, bound, enough⟩ :=
    wf.count_spec counted covers pat
  obtain ⟨quads, holds⟩ := wf.holds
  obtain ⟨e, order, best, -, -, -⟩ := holds.exists_best pat
  obtain ⟨bt, spo⟩ := holds.hasSpo
  have present : Order.spo ∈ snap.base.orderings.map Prod.fst := List.mem_map.mpr ⟨_, spo, rfl⟩
  have primary : Order.spo ∈ snap.base.scanOrders := Segment.mem_scanOrders.mpr (Or.inl present)
  have byPredicate {q : QuadKey} (phantom : snap.base.PhantomKey q) :
      snap.base.bestScanOrder pat = some .pso ↔ snap.base.ByPredicate pat := by
    obtain ⟨foq, layer, none_, -⟩ := phantom
    exact Segment.bestScanOrder_eq_pso best present layer none_
  constructor
  · rintro ⟨n, estimate', count', -, -, scans⟩ q phantom matches_
    rw [count] at count'
    obtain rfl := Except.ok.inj (Option.some.inj count')
    -- in SPO the scan yields the visible quads alone
    obtain ⟨scan, batches, run, yields, length⟩ := scans .spo primary 1 Nat.one_pos
    obtain ⟨scan', batches', run', yields', nodup', members'⟩ :=
      wf.yields_spec primary covers pat Nat.one_pos
    rw [run] at run'
    obtain rfl := Except.ok.inj run'
    obtain rfl := yields.unique yields'
    have same := ((List.perm_ext_iff_of_nodup nodup' nodup).mpr fun q => by
      rw [members', members]
      simp).length_eq
    have none_ : phantoms = [] := List.eq_nil_of_length_eq_zero (by omega)
    refine ⟨fun undecided => ?_, fun alone => ?_⟩
    · obtain ⟨foq, layer, virtual, -⟩ := id phantom
      have offered : Order.pso ∈ snap.base.scanOrders :=
        Segment.mem_scanOrders.mpr (Or.inr ⟨foq, layer, Or.inl rfl⟩)
      obtain ⟨scan, batches, run, yields, length⟩ := scans .pso offered 1 Nat.one_pos
      obtain ⟨scan', batches', run', yields', nodup', members'⟩ :=
        wf.yields_spec offered covers pat Nat.one_pos
      rw [run] at run'
      obtain rfl := Except.ok.inj run'
      obtain rfl := yields.unique yields'
      -- the visible quads and one more
      have hidden : q ∉ visible := fun inside => by
        have shown := ((members q).mp inside).2
        rw [containsKey, undecided] at shown
        exact Bool.false_ne_true ((wf.not_containsQuad_phantom phantom).symm.trans shown)
      have more := (List.subperm_of_subset (nodup.cons hidden) fun c mem => by
        rcases List.mem_cons.mp mem with rfl | inside
        · exact (members' _).mpr ⟨matches_, Or.inr ⟨rfl, phantom, undecided⟩⟩
        · obtain ⟨matches', shown⟩ := (members c).mp inside
          exact (members' c).mpr ⟨matches', Or.inl shown⟩).length_le
      rw [List.length_cons] at more
      rw [none_, List.length_nil] at length
      omega
    · have inside := (phantomMem q).mpr ⟨matches_, (byPredicate phantom).mpr alone, phantom⟩
      rw [none_] at inside
      cases inside
  · intro clear
    have none_ : phantoms = [] := List.eq_nil_iff_forall_not_mem.mpr fun q inside => by
      obtain ⟨matches_, pso, phantom⟩ := (phantomMem q).mp inside
      exact (clear q phantom matches_).2 ((byPredicate phantom).mp pso)
    rw [none_, List.length_nil, Nat.add_zero] at count enough
    refine ⟨_, estimate, count, bound, enough, fun order offered capacity some_ => ?_⟩
    obtain ⟨scan, batches, run, yields, nodup', members'⟩ :=
      wf.yields_spec offered covers pat some_
    refine ⟨scan, batches, run, yields, ?_⟩
    refine ((List.perm_ext_iff_of_nodup nodup' nodup).mpr fun q => ?_).length_eq
    rw [members', members]
    refine and_congr_right fun matches_ => ⟨fun h => h.elim id fun h => ?_, Or.inl⟩
    exact absurd h.2.2 (clear q h.2.1 matches_).1

theorem Reached.counted {snap : Snapshot} (reached : Reached snap) : snap.delta.Counted := by
  induction reached with
  | opened generation wf valid spo built => exact Delta.counted_new _ _ _ _ _
  | @interned snap q reached ih =>
      obtain ⟨ext, -, -⟩ := internKey_spec reached.invariant.1.wf.fits q
      exact ⟨by rw [ext.delta.events, ext.delta.indexes]; exact ih.events,
        by rw [ext.delta.tombstones, ext.delta.indexes]; exact ih.tombstones⟩
  | @recorded snap tx later valid reached ih =>
      exact ih.record reached.invariant.1.wf.coherent.nonempty _ _
  | collected floor reached ih => exact Delta.counted_gc _ _ _
  | ordered order reached ih => exact ih.addOrder order

/-- Counts of a reachable state, at any epoch. -/
theorem countsAgree_iff {snap : Snapshot} (reached : Reached snap) (epoch : Nat) (pat : Pattern) :
    (snap.atEpoch epoch).CountsAgree pat ↔ ∀ q, snap.base.PhantomKey q → pat.Matches q →
      snap.delta.probe q epoch ≠ none ∧ ¬ snap.base.ByPredicate pat :=
  (reached.invariant.1.wf.atEpoch epoch).countsAgree reached.counted reached.invariant.2 pat

end Snapshot

section Concrete

attribute [local instance] plainCodec

theorem countsAgree_iff_quoted : (Snapshot.quoted.atEpoch 1).CountsAgree {} ↔
    ∀ q, Snapshot.quoted.base.PhantomKey q → Pattern.Matches {} q →
      Snapshot.quoted.delta.probe q 1 ≠ none ∧ ¬ Snapshot.quoted.base.ByPredicate {} :=
  Snapshot.countsAgree_iff quoted_reached 1 {}

/-- No quad has the predicate `:b`, but one is counted. -/
theorem not_countsAgree_quoted : Snapshot.quoted.Reached ∧
    ¬ Snapshot.quoted.CountsAgree { p := some (Col.dict 1) } := by
  obtain ⟨settled, covers⟩ := quoted_reached.invariant
  refine ⟨quoted_reached, fun agree => ?_⟩
  have clear := (settled.wf.countsAgree quoted_reached.counted covers _).mp agree
  exact (clear _ quoted_phantom (by simp [Pattern.Matches, Pattern.MatchesTriple, QuadKey.triple])).1 rfl

end Concrete

end Graphy
