import Graphy.Store.Proofs.Build
import Graphy.Store.Proofs.Group

/-!
# Fresh snapshots and replay

A base segment without events shows the quads it was built from.  Replaying
logged transactions of increasing epochs applies their updates in turn.
-/

namespace Graphy

variable [InlineCodec]

omit [InlineCodec] in
theorem Segment.scanOrders_ne_nil {seg : Segment} (h : seg.orderings ≠ []) : seg.scanOrders ≠ [] := by
  have keep (l : List Order) (ne : l ≠ []) (o : Order) : (if o ∈ l then l else l ++ [o]) ≠ [] := by
    split
    · exact ne
    · simp
  have ne : seg.orderings.map Prod.fst ≠ [] := by simpa using h
  simp only [Segment.scanOrders]
  cases seg.foq with
  | none => exact ne
  | some f => exact keep _ (keep _ ne .pso) .osp

theorem Segment.Holds.orderings_ne_nil {seg : Segment} {quads : List QuadKey}
    (h : seg.Holds quads) : seg.orderings ≠ [] := by
  obtain ⟨bt, mem⟩ := h.hasSpo
  exact List.ne_nil_of_mem mem

/-- The quads of a base segment. -/
def Segment.dataset (base : Segment) : Set QuadTerms := (base.freshSnapshot 0).dataset

namespace Snapshot

omit [InlineCodec] in
theorem eventsAt_fresh (base : Segment) (generation : Nat) (k : QuadKey) :
    (base.freshSnapshot generation).delta.eventsAt k = [] := Delta.eventsAt_new ..

/-- A store opened without a log starts from the quads of its base. -/
theorem fresh_settled {base : Segment} {quads : List QuadKey} (h : base.Holds quads)
    (generation : Nat) : (base.freshSnapshot generation).Settled where
  wf := {
    holds := ⟨quads, h⟩
    fits := by constructor <;> intro pos <;> cases pos <;>
      simp [Segment.freshSnapshot, Delta.space, Delta.new, OverlaySpace.new, Segment.overlayBase]
    coherent := Delta.coherent_new (Segment.scanOrders_ne_nil h.orderings_ne_nil) ..
    keysValid := fun k some_ => absurd (eventsAt_fresh base generation k) some_
    sorted := by
      intro k
      rw [eventsAt_fresh]
      exact List.Pairwise.nil }
  below := by simp [eventsAt_fresh]

theorem fresh_sound {base : Segment} {quads : List QuadKey} (h : base.Holds quads)
    (accepted : base.dict.Accepted) (generation : Nat) : (base.freshSnapshot generation).Sound :=
  ⟨fresh_settled h generation, accepted⟩

omit [InlineCodec] in
theorem containsKey_fresh (base : Segment) (generation : Nat) (k : QuadKey) :
    (base.freshSnapshot generation).containsKey k = base.containsQuad k := by
  simp only [containsKey, Delta.probe_eq, eventsAt_fresh, Delta.effective_nil]
  rfl

theorem dataset_fresh (base : Segment) (generation : Nat) :
    (base.freshSnapshot generation).dataset = base.dataset := rfl

end Snapshot

/-! ## Replay -/

/-- A logged transaction the planner accepts. -/
def OpsValid (ops : List WalOp) : Prop := TxValid (opsUpdate ops).dels (opsUpdate ops).adds

omit [InlineCodec] in
theorem forM_ok_iff {α : Type} {f : α → Except StoreError Unit} {l : List α} :
    l.forM f = .ok () ↔ ∀ a ∈ l, f a = .ok () := by
  induction l with
  | nil => exact ⟨fun _ => by simp, fun _ => rfl⟩
  | cons a l ih =>
      have head : (a :: l).forM f = (f a).bind fun _ => l.forM f := rfl
      rw [head, List.forall_mem_cons, ← ih]
      cases f a with
      | error e => simp [Except.bind]
      | ok u => simp [Except.bind]

omit [InlineCodec] in
theorem txValid_iff {dels adds : List QuadTerms} :
    TxValid dels adds ↔ ∀ q ∈ dels ++ adds, validateQuad q = .ok () := forM_ok_iff

omit [InlineCodec] in
theorem opsValid_iff {ops : List WalOp} :
    OpsValid ops ↔ ∀ op ∈ ops, validateQuad op.2 = .ok () := by
  rw [OpsValid, txValid_iff]
  constructor
  · rintro h ⟨del, q⟩ hop
    apply h q
    cases del with
    | true => exact List.mem_append_left _ (mem_opsUpdate_dels.mpr hop)
    | false => exact List.mem_append_right _ (mem_opsUpdate_adds.mpr hop)
  · intro h q hq
    rcases List.mem_append.mp hq with del | add
    · exact h _ (mem_opsUpdate_dels.mp del)
    · exact h _ (mem_opsUpdate_adds.mp add)

/-- A transaction planned alone, and what recording it leaves. -/
theorem Snapshot.recordAlone_spec {snap : Snapshot} (sound : snap.Sound)
    {dels adds : List QuadTerms} {st : PlanState}
    (core : commitCore snap dels adds Carry.none = .ok st) {epoch : Nat} (later : snap.epoch < epoch)
    (frames : List WalRecord) : snap.Extends st.snap ∧ st.snap.Sound ∧
      (st.snap.record ⟨st.entries, epoch, frames⟩).Sound ∧
      (st.snap.record ⟨st.entries, epoch, frames⟩).dataset =
        (Update.map (QuadTerms.named snap.base.dict) ⟨dels, adds⟩).apply snap.dataset := by
  have none_ : Carry.none.Valid snap := fun k h => absurd rfl h
  obtain ⟨-, spec⟩ := commitCore_spec sound.wf sound.accepted none_ core
  have sound' := sound.extends spec.inv.ext spec.inv.wf
  have keys : ∀ e ∈ st.entries, st.snap.ValidKey e.1 := by
    intro e he
    apply spec.inv.valid
    rw [spec.inv.carry_eq]
    simp only [Carry.after, ne_eq, Option.or_eq_none_iff, not_and_or]
    left
    simp only [Delta.lastKind, Option.map_eq_none_iff, List.find?_eq_none, List.mem_reverse]
    exact fun h => h e he (by simp)
  have above : st.snap.epoch < epoch := by rw [spec.inv.ext.epoch]; exact later
  have recorded : (st.snap.record ⟨st.entries, epoch, frames⟩).Sound :=
    sound'.record above.le keys
  refine ⟨spec.inv.ext, sound', recorded, ?_⟩
  have shows := @Snapshot.shows_record _ _ sound'.toSettled ⟨st.entries, epoch, frames⟩ above []
  rw [Carry.after_nil, Snapshot.shows_none recorded.wf, List.append_nil] at shows
  have planned := spec.shows
  rw [PlanState.shows, spec.inv.carry_eq, Snapshot.shows_none sound.wf] at planned
  rw [shows]
  exact planned

/-- Replaying one transaction above the epoch applies its update. -/
theorem replayTx_spec {snap : Snapshot} (sound : snap.Sound) (log : String)
    {tx : Nat × List WalOp} (later : snap.epoch < tx.1) (valid : OpsValid tx.2) :
    ∃ snap', replayTx log snap tx = .ok snap' ∧ snap'.Sound ∧ snap'.base = snap.base ∧
      snap'.generation = snap.generation ∧ snap'.epoch = tx.1 ∧
      snap'.dataset = ((opsUpdate tx.2).map (QuadTerms.named snap.base.dict)).apply snap.dataset := by
  obtain ⟨st, core⟩ := commitCore_of_valid snap Carry.none valid
  obtain ⟨ext, -, recorded, dataset⟩ := Snapshot.recordAlone_spec sound core later []
  refine ⟨st.snap.record ⟨st.entries, tx.1, []⟩, ?_, recorded, ext.base, ext.generation, rfl, dataset⟩
  simp only [replayTx, Nat.not_le.mpr later, if_false, core]
  rfl

/-- Epochs of logged transactions increase from above `epoch`. -/
def EpochsAbove (epoch : Nat) (txs : List (Nat × List WalOp)) : Prop :=
  (∀ tx ∈ txs, epoch < tx.1) ∧ txs.Pairwise fun a b => a.1 < b.1

/-- The epoch of the last transaction, or `epoch` without one. -/
def lastEpoch (epoch : Nat) (txs : List (Nat × List WalOp)) : Nat :=
  (txs.getLast?.map Prod.fst).getD epoch

omit [InlineCodec] in
theorem lastEpoch_cons (epoch : Nat) (tx : Nat × List WalOp) (txs : List (Nat × List WalOp)) :
    lastEpoch epoch (tx :: txs) = lastEpoch tx.1 txs := by
  simp only [lastEpoch, List.getLast?_cons, Option.map_some, Option.getD_some]
  cases txs.getLast? <;> rfl

/-- Replaying transactions of increasing epochs succeeds and applies their updates. -/
theorem replay_spec {snap : Snapshot} (sound : snap.Sound) (log : String)
    {txs : List (Nat × List WalOp)} (epochs : EpochsAbove snap.epoch txs)
    (valid : ∀ tx ∈ txs, OpsValid tx.2) :
    ∃ snap', txs.foldlM (replayTx log) snap = .ok snap' ∧ snap'.Sound ∧ snap'.base = snap.base ∧
      snap'.generation = snap.generation ∧ snap'.epoch = lastEpoch snap.epoch txs ∧
      snap'.dataset = Update.applyAll
        (txs.map fun tx => (opsUpdate tx.2).map (QuadTerms.named snap.base.dict)) snap.dataset := by
  induction txs generalizing snap with
  | nil => exact ⟨snap, rfl, sound, rfl, rfl, rfl, rfl⟩
  | cons tx txs ih =>
      obtain ⟨above, sorted⟩ := epochs
      obtain ⟨first, rest⟩ := List.pairwise_cons.mp sorted
      obtain ⟨mid, redo, sound1, base1, gen1, epoch1, data1⟩ :=
        replayTx_spec sound log (above tx List.mem_cons_self) (valid tx List.mem_cons_self)
      obtain ⟨last, run, sound2, base2, gen2, epoch2, data2⟩ :=
        ih sound1 (by rw [epoch1]; exact ⟨first, rest⟩)
          fun t ht => valid t (List.mem_cons_of_mem _ ht)
      refine ⟨last, ?_, sound2, base2.trans base1, gen2.trans gen1, ?_, ?_⟩
      · rw [List.foldlM_cons, redo]
        exact run
      · rw [epoch2, epoch1, lastEpoch_cons]
      · rw [data2, data1, base1, List.map_cons, Update.applyAll_cons]

/-- Replay fails on an epoch that does not increase. -/
theorem replayTx_stale {snap : Snapshot} (log : String) {tx : Nat × List WalOp}
    (stale : tx.1 ≤ snap.epoch) : ∃ e, replayTx log snap tx = .error e := by
  simp only [replayTx, stale, if_true]
  exact ⟨_, rfl⟩

/-! ## The store without a directory -/

omit [InlineCodec] in
theorem empty_built :
    buildFromIds ⟨.balanced, none⟩ Segment.empty.dict [] = .ok Segment.empty := by rfl

theorem empty_holds : Segment.empty.Holds [] := by
  have wf : Segment.empty.dict.WF := by
    constructor <;> simp [Segment.empty]
  have valid : ∀ q ∈ ([] : List QuadKey), Segment.empty.dict.ValidKey q := by simp
  obtain ⟨seg, built, holds, -⟩ := buildFromIds_holds ⟨.balanced, none⟩ wf valid (by decide)
  rw [empty_built] at built
  cases built
  exact holds

/-- The snapshot an ephemeral store starts with. -/
def Snapshot.ephemeral : Snapshot := Segment.empty.freshSnapshot 0

theorem ephemeral_settled : Snapshot.ephemeral.Settled := Snapshot.fresh_settled empty_holds 0

theorem empty_accepted : Segment.empty.dict.Accepted where
  subject := by
    intro v b h
    simp [Dictionary.decodeBytes, Dictionary.decodeValue, Dictionary.sectionValue,
      Segment.empty] at h
  predicate := by
    intro v b h
    simp [Dictionary.decodeBytes, Dictionary.decodeValue, Dictionary.predicateValue,
      Segment.empty] at h
  graph := by
    intro v b h
    simp [Dictionary.decodeBytes, Dictionary.decodeValue, Segment.empty] at h
  object := by
    rintro v (⟨-, bound⟩ | ⟨-, bound⟩ | ⟨b, inline⟩) t decoded
    · simp [Dictionary.nObjects, Segment.empty] at bound
    · simp [Segment.empty] at bound
    · have resolved : Segment.empty.dict.resolveTerm (.atom b) .object = some v := by
        simp [Dictionary.resolveTerm, Dictionary.resolveObject, inline]
      have back := (empty_holds.dict.decodeValue_of_resolve resolved).2
      rw [decoded, Option.some.injEq] at back
      rw [back]
      exact InlineCodec.read_tryInline inline

theorem ephemeral_sound : Snapshot.ephemeral.Sound := ⟨ephemeral_settled, empty_accepted⟩

theorem ephemeral_dataset : Snapshot.ephemeral.dataset = ∅ := by
  ext q
  constructor
  · rintro ⟨k, visible, -⟩
    rw [Snapshot.ephemeral, Snapshot.containsKey_fresh] at visible
    exact absurd (empty_holds.containsQuad_iff.mp visible) (by simp)
  · exact False.elim

end Graphy
