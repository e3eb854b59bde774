import Graphy.Store.Group
import Graphy.Store.Proofs.Commit

/-!
# Planning and recording a group

A snapshot with a list of planned transactions is `Ready` when recording the
first transactions of the list shows the dataset with exactly those updates
applied.  Planning appends to the list, recording takes from its front.
-/

namespace Graphy

variable [InlineCodec]

namespace Delta

omit [InlineCodec] in
theorem effective_of_le {events : Events} {e e' : Nat} (h : ∀ ev ∈ events, ev.1 ≤ e)
    (h' : ∀ ev ∈ events, ev.1 ≤ e') : effective events e = effective events e' := by
  have all {b : Nat} (hb : ∀ ev ∈ events, ev.1 ≤ b) :
      (events.reverse.find? fun ev => decide (ev.1 ≤ b)) = events.reverse.head? := by
    cases shape : events.reverse with
    | nil => rfl
    | cons ev rest =>
        have mem : ev ∈ events := by
          rw [← List.mem_reverse, shape]
          exact List.mem_cons_self
        simp [hb ev mem]
  simp only [effective, all h, all h']

omit [InlineCodec] in
@[simp] theorem space_record (d : Delta) (entries : List (QuadKey × DeltaKind)) (epoch : Nat)
    (pos : TermPos) : (d.record entries epoch).space pos = d.space pos := by
  cases pos <;> rfl

end Delta

namespace Snapshot

/-- A well-formed snapshot at an epoch no event is above. -/
structure Settled (snap : Snapshot) : Prop where
  wf : snap.WF
  below : ∀ k, ∀ ev ∈ snap.delta.eventsAt k, ev.1 ≤ snap.epoch

theorem Settled.extends {snap snap' : Snapshot} (settled : snap.Settled) (ext : snap.Extends snap')
    (wf' : snap'.WF) : snap'.Settled where
  wf := wf'
  below := by
    intro k
    rw [ext.delta.eventsAt, ext.epoch]
    exact settled.below k

/-- A settled snapshot whose base terms are spelled as the encoder does. -/
structure Sound (snap : Snapshot) : Prop extends Settled snap where
  accepted : snap.base.dict.Accepted

theorem Sound.extends {snap snap' : Snapshot} (sound : snap.Sound) (ext : snap.Extends snap')
    (wf' : snap'.WF) : snap'.Sound where
  toSettled := sound.toSettled.extends ext wf'
  accepted := by
    rw [ext.base]
    exact sound.accepted

theorem dataset_extends {snap snap' : Snapshot} (sound : snap.Sound) (ext : snap.Extends snap')
    (wf' : snap'.WF) : snap'.dataset = snap.dataset :=
  Set.ext fun _ => sound.wf.contains_extends sound.accepted ext wf'

/-- A quad of a snapshot is stored under its own bytes. -/
theorem Sound.named_of_mem {snap : Snapshot} (sound : snap.Sound) {q : QuadTerms}
    (h : q ∈ snap.dataset) : q.named snap.base.dict = q := by
  obtain ⟨k, visible, decoded⟩ := h
  have valid := sound.wf.validKey_of_containsKey visible
  have resolved := resolveKey_of_decodeKey sound.wf.dict sound.wf.fits sound.accepted
    valid decoded
  have back := ((resolveKey_eq_some_iff sound.wf.dict sound.wf.fits sound.accepted).mp
    resolved).2
  rw [decoded, Option.some.injEq] at back
  exact back.symm

theorem resolveKey_record (snap : Snapshot) (tx : PlannedTx) (q : QuadTerms) :
    (snap.record tx).resolveKey q = snap.resolveKey q := by
  simp only [resolveKey, resolveCol, record, Delta.resolve, Delta.space_record]

theorem validKey_record {snap : Snapshot} {tx : PlannedTx} {k : QuadKey} :
    (snap.record tx).ValidKey k ↔ snap.ValidKey k := by
  have len (pos : TermPos) :
      (snap.delta.record tx.entries tx.epoch).spaceLen pos = snap.delta.spaceLen pos := by
    simp only [Delta.spaceLen, Delta.space_record]
  have col (v : Col) (pos : TermPos) : (snap.record tx).ValidCol v pos ↔ snap.ValidCol v pos := by
    cases pos <;> simp only [ValidCol, record, len]
  constructor
  · rintro ⟨s, p, o, g⟩
    exact ⟨(col _ _).mp s, (col _ _).mp p, (col _ _).mp o, g.imp id (col _ _).mp⟩
  · rintro ⟨s, p, o, g⟩
    exact ⟨(col _ _).mpr s, (col _ _).mpr p, (col _ _).mpr o, g.imp id (col _ _).mpr⟩

theorem decodeKey_record (snap : Snapshot) (tx : PlannedTx) (k : QuadKey) :
    (snap.record tx).decodeKey k = snap.decodeKey k := by
  have col (v : Col) (pos : TermPos) :
      (snap.record tx).decodeValue v pos = snap.decodeValue v pos := by
    cases pos <;> simp only [decodeValue, record, Delta.decode, Delta.space_record]
  simp only [decodeKey, col]

/-- A recorded transaction is visible at its epoch. -/
theorem containsKey_record {snap : Snapshot} (settled : snap.Settled) {tx : PlannedTx}
    (later : snap.epoch ≤ tx.epoch) (k : QuadKey) :
    (snap.record tx).containsKey k = snap.presentKey (Carry.none.after tx.entries) k := by
  have old : Delta.effective (snap.delta.eventsAt k) tx.epoch =
      Delta.effective (snap.delta.eventsAt k) snap.epoch :=
    Delta.effective_of_le (fun ev h => (settled.below k ev h).trans later) (settled.below k)
  simp only [containsKey, record, Delta.probe_eq, Delta.eventsAt_record settled.wf.coherent,
    Delta.effective_append, Delta.effective_eventsOf (le_refl _), old, presentKey, Carry.after,
    Carry.none]
  cases Delta.lastKind tx.entries k with
  | none => simp
  | some kind => cases kind <;> rfl

theorem Settled.record {snap : Snapshot} (settled : snap.Settled) {tx : PlannedTx}
    (later : snap.epoch ≤ tx.epoch) (valid : ∀ e ∈ tx.entries, snap.ValidKey e.1) :
    (snap.record tx).Settled := by
  have split := fun k => Delta.eventsAt_record settled.wf.coherent tx.entries tx.epoch k
  refine ⟨⟨settled.wf.holds, ?_, settled.wf.coherent.record _ _, ?_, ?_⟩, ?_⟩
  · constructor <;> simp only [Snapshot.record, Delta.space_record]
    · exact settled.wf.fits.space_base
    · exact settled.wf.fits.nodup
    · exact settled.wf.fits.fresh
    · exact settled.wf.fits.aliases_length
  · intro k some_
    rw [validKey_record]
    by_cases old : snap.delta.eventsAt k = []
    · simp only [Snapshot.record, split, old, List.nil_append] at some_
      obtain ⟨ev, hev⟩ := List.exists_mem_of_ne_nil _ some_
      obtain ⟨e, he, -⟩ := List.mem_map.mp hev
      obtain ⟨mem, same⟩ := List.mem_filter.mp he
      rw [← of_decide_eq_true same]
      exact valid e mem
    · exact settled.wf.keysValid k old
  · intro k
    simp only [Snapshot.record, split]
    exact Delta.epochSorted_record (settled.wf.sorted k)
      (fun e he => (settled.below k e he).trans later) k
  · intro k ev hev
    simp only [Snapshot.record, split] at hev
    rcases List.mem_append.mp hev with old | new
    · exact (settled.below k ev old).trans later
    · exact le_of_eq (Delta.epoch_of_mem_eventsOf new)

theorem Sound.record {snap : Snapshot} (sound : snap.Sound) {tx : PlannedTx}
    (later : snap.epoch ≤ tx.epoch) (valid : ∀ e ∈ tx.entries, snap.ValidKey e.1) :
    (snap.record tx).Sound where
  toSettled := sound.toSettled.record later valid
  accepted := sound.accepted

theorem shows_record {snap : Snapshot} (settled : snap.Settled) {tx : PlannedTx}
    (later : snap.epoch < tx.epoch) (entries : List (QuadKey × DeltaKind)) :
    (snap.record tx).shows (Carry.none.after entries) =
      snap.shows (Carry.none.after (tx.entries ++ entries)) := by
  have same (k : QuadKey) : (snap.record tx).presentKey (Carry.none.after entries) k =
      snap.presentKey (Carry.none.after (tx.entries ++ entries)) k := by
    rw [← Carry.after_append]
    simp only [presentKey, containsKey_record settled later.le]
    cases h : Delta.lastKind entries k <;> simp [Carry.after, h, Carry.none]
  ext q
  simp only [shows, Set.mem_ofPred_eq, validKey_record, decodeKey_record, same]

end Snapshot

/-! ## Groups ready to be recorded -/

/-- Transactions planned over a snapshot, each with the update it stands for. -/
abbrev PlannedList := List (Update QuadTerms × PlannedTx)

/-- Entries of the planned transactions, in order. -/
def PlannedList.entries (ms : PlannedList) : List (QuadKey × DeltaKind) :=
  ms.flatMap fun m => m.2.entries

def PlannedList.frames (ms : PlannedList) : List WalRecord := ms.flatMap fun m => m.2.frames

/-- The dataset the updates leave. -/
def PlannedList.applyTo (ms : PlannedList) (d : Set QuadTerms) : Set QuadTerms :=
  Update.applyAll (ms.map Prod.fst) d

omit [InlineCodec] in
theorem PlannedList.applyTo_concat (ms : PlannedList) (m : Update QuadTerms × PlannedTx)
    (d : Set QuadTerms) : PlannedList.applyTo (ms ++ [m]) d = m.1.apply (ms.applyTo d) := by
  simp [PlannedList.applyTo, Update.applyAll_append]

/-- Recording any first part of the list shows its updates applied. -/
structure Ready (snap : Snapshot) (ms : PlannedList) : Prop where
  sound : snap.Sound
  valid : ∀ m ∈ ms, ∀ e ∈ m.2.entries, snap.ValidKey e.1
  epochs : ms.map (fun m => m.2.epoch) = List.range' (snap.epoch + 1) ms.length
  shows : ∀ pre suf : PlannedList, ms = pre ++ suf →
    snap.shows (Carry.none.after pre.entries) = pre.applyTo snap.dataset

theorem ready_nil {snap : Snapshot} (sound : snap.Sound) : Ready snap [] where
  sound := sound
  valid := by simp
  epochs := rfl
  shows := by
    intro pre suf eq
    obtain ⟨rfl, -⟩ := List.append_eq_nil_iff.mp eq.symm
    exact Snapshot.shows_none sound.wf

/-- The carry of a ready list names terms of the snapshot. -/
theorem Ready.carry_valid {snap : Snapshot} {ms : PlannedList} (ready : Ready snap ms) :
    (Carry.none.after ms.entries).Valid snap := by
  intro k carried
  simp only [Carry.after, Carry.none, Option.or_none, Delta.lastKind, ne_eq,
    Option.map_eq_none_iff] at carried
  obtain ⟨e, found⟩ := Option.ne_none_iff_exists'.mp carried
  have mem := List.mem_reverse.mp (List.mem_of_find?_eq_some found)
  obtain ⟨m, hm, he⟩ := List.mem_flatMap.mp mem
  have same : e.1 = k := by simpa using List.find?_some found
  exact same ▸ ready.valid m hm e he

theorem Ready.extends {snap snap' : Snapshot} {ms : PlannedList} (ready : Ready snap ms)
    (ext : snap.Extends snap') (wf' : snap'.WF) : Ready snap' ms where
  sound := ready.sound.extends ext wf'
  valid := fun m hm e he => ext.validKey (ready.valid m hm e he)
  epochs := by rw [ext.epoch]; exact ready.epochs
  shows := by
    intro pre suf eq
    have valid : (Carry.none.after pre.entries).Valid snap := by
      have ready' : Ready snap pre := {
        sound := ready.sound
        valid := fun m hm => ready.valid m (eq ▸ List.mem_append_left _ hm)
        epochs := by
          have all := ready.epochs
          rw [eq, List.map_append, List.length_append, ← List.range'_append_1] at all
          exact (List.append_inj all (by simp)).1
        shows := fun p s e => ready.shows p (s ++ suf) (by rw [eq, e, List.append_assoc]) }
      exact ready'.carry_valid
    rw [Snapshot.shows_extends ready.sound.wf ready.sound.accepted ext wf' valid,
      ready.shows pre suf eq, Snapshot.dataset_extends ready.sound ext wf']

/-- Recording the first transaction leaves the rest ready. -/
theorem Ready.record {snap : Snapshot} {m : Update QuadTerms × PlannedTx} {ms : PlannedList}
    (ready : Ready snap (m :: ms)) :
    Ready (snap.record m.2) ms ∧ (snap.record m.2).dataset = m.1.apply snap.dataset ∧
      snap.epoch < m.2.epoch := by
  have epochs := ready.epochs
  simp only [List.map_cons, List.length_cons, List.range'_succ, List.cons.injEq] at epochs
  have later : snap.epoch < m.2.epoch := by omega
  have sound := ready.sound.record later.le (ready.valid m List.mem_cons_self)
  have dataset : (snap.record m.2).dataset = m.1.apply snap.dataset := by
    have first := ready.shows [m] ms rfl
    rw [← Snapshot.shows_none sound.wf]
    have one := Snapshot.shows_record ready.sound.toSettled later []
    rw [List.append_nil, Carry.after_nil] at one
    rw [one]
    simpa [PlannedList.entries, PlannedList.applyTo] using first
  refine ⟨⟨sound, ?_, ?_, ?_⟩, dataset, later⟩
  · intro m' hm' e he
    exact Snapshot.validKey_record.mpr (ready.valid m' (List.mem_cons_of_mem _ hm') e he)
  · rw [epochs.2]
    simp only [Snapshot.record, epochs.1]
  · intro pre suf eq
    have whole := ready.shows (m :: pre) suf (by rw [eq, List.cons_append])
    rw [Snapshot.shows_record ready.sound.toSettled later, dataset]
    simpa [PlannedList.entries, PlannedList.applyTo] using whole

/-! ## Planning -/

/-- What holds while a group is being planned: `ms` are the transactions planned so far. -/
structure GroupInv (start snap : Snapshot) (plan : GroupPlan) (ms : PlannedList) : Prop where
  ext : start.Extends snap
  sound : start.Sound
  ready : Ready snap ms
  carry : plan.carry = Carry.none.after ms.entries
  epoch : plan.epoch = snap.epoch + ms.length
  frames : plan.frames = ms.frames

theorem GroupInv.dataset {start snap : Snapshot} {plan : GroupPlan} {ms : PlannedList}
    (inv : GroupInv start snap plan ms) : snap.dataset = start.dataset :=
  Snapshot.dataset_extends inv.sound inv.ext inv.ready.sound.wf

/-- What a transaction being planned after `ms` sees. -/
theorem GroupInv.shows {start snap : Snapshot} {plan : GroupPlan} {ms : PlannedList}
    (inv : GroupInv start snap plan ms) : snap.shows plan.carry = ms.applyTo start.dataset := by
  rw [inv.carry, inv.ready.shows ms [] (by simp), inv.dataset]

theorem groupInv_start {snap : Snapshot} (sound : snap.Sound) (hard : Nat) :
    GroupInv snap snap (GroupPlan.start snap hard) [] where
  ext := Snapshot.Extends.refl snap
  sound := sound
  ready := ready_nil sound
  carry := by
    funext k
    simp [GroupPlan.start, Carry.after, Carry.none, PlannedList.entries]
  epoch := rfl
  frames := rfl

/-- The transactions an outcome adds to the planned ones. -/
def PlanOutcome.planList (o : PlanOutcome) (u : Update QuadTerms) : PlannedList :=
  match o with
  | .planned p => [(u, p)]
  | _ => []

/-- The update of a transaction over the quads the dictionary stores for the given ones. -/
def Tx.updateOn (dict : Dictionary) (tx : Tx) : Update QuadTerms :=
  tx.update.map (QuadTerms.named dict)

/-- What a planned transaction is to the dataset `d` left by the ones before it. -/
structure PlannedSpec (dict : Dictionary) (tx : Tx) (d : Set QuadTerms) (p : PlannedTx) : Prop where
  valid : TxValid tx.dels tx.adds
  busy : ¬ (tx.updateOn dict).Idle d
  /-- Deletes are recorded before adds. -/
  ordered : ∃ ds as, p.entries = ds ++ as ∧ (∀ e ∈ ds, e.2 = .tombstone) ∧ ∀ e ∈ as, e.2 = .add
  /-- The logged operations do what the transaction does. -/
  logged : ∃ ops, p.frames = txRecords p.epoch ops ∧
    ((opsUpdate ops).map (QuadTerms.named dict)).apply d = (tx.updateOn dict).apply d ∧
    ∀ op ∈ ops, op.2 ∈ tx.dels ++ tx.adds

/-- What an outcome says about its transaction: it is planned exactly when it is
accepted and changes the dataset `d` the transactions before it leave. -/
def OutcomeSpec (dict : Dictionary) (tx : Tx) (d : Set QuadTerms) : PlanOutcome → Prop
  | .planned p => PlannedSpec dict tx d p
  | .unchanged => TxValid tx.dels tx.adds ∧ (tx.updateOn dict).Idle d
  | .failed _ => True

/-- A planned transaction is ready behind the ones before it. -/
theorem Ready.plan {snap : Snapshot} {ms : PlannedList} (ready : Ready snap ms)
    {dels adds : List QuadTerms} {st : PlanState}
    (spec : CommitSpec snap (Carry.none.after ms.entries) dels adds st) (frames : List WalRecord) :
    Ready st.snap (ms ++ [(Update.map (QuadTerms.named snap.base.dict) ⟨dels, adds⟩,
      ⟨st.entries, snap.epoch + ms.length + 1, frames⟩)]) := by
  have before := ready.extends spec.inv.ext spec.inv.wf
  have dataset := Snapshot.dataset_extends ready.sound spec.inv.ext spec.inv.wf
  refine ⟨before.sound, ?_, ?_, ?_⟩
  · intro m hm e he
    rcases List.mem_append.mp hm with old | new
    · exact before.valid m old e he
    · obtain rfl := List.mem_singleton.mp new
      apply spec.inv.valid
      rw [spec.inv.carry_eq]
      simp only [Carry.after, ne_eq, Option.or_eq_none_iff, not_and_or]
      left
      simp only [Delta.lastKind, Option.map_eq_none_iff, List.find?_eq_none, List.mem_reverse]
      exact fun h => h e he (by simp)
  · simp only [List.map_append, List.map_cons, List.map_nil, List.length_append, List.length_cons,
      List.length_nil, List.range'_concat, before.epochs, spec.inv.ext.epoch]
    congr 2
    omega
  · intro pre suf eq
    rcases List.eq_nil_or_concat suf with rfl | ⟨suf, last, rfl⟩
    · rw [List.append_nil] at eq
      subst eq
      have whole := spec.shows
      rw [PlanState.shows, spec.inv.carry_eq, Carry.after_append,
        ready.shows ms [] (by simp)] at whole
      rw [PlannedList.applyTo_concat, dataset, ← whole]
      simp [PlannedList.entries]
    · rw [List.concat_eq_append, ← List.append_assoc] at eq
      exact before.shows pre suf (List.append_inj_left' eq (by simp))

theorem planOne_spec {start snap : Snapshot} {plan : GroupPlan} {ms : PlannedList}
    (inv : GroupInv start snap plan ms) (merger : Bool) (tx : Tx) :
    GroupInv start (planOne merger snap plan tx).1 (planOne merger snap plan tx).2.1
        (ms ++ (planOne merger snap plan tx).2.2.planList (tx.updateOn start.base.dict)) ∧
      snap.Extends (planOne merger snap plan tx).1 ∧
      OutcomeSpec start.base.dict tx (ms.applyTo start.dataset) (planOne merger snap plan tx).2.2 := by
  rcases h : planOne merger snap plan tx with ⟨snap', plan', o⟩
  simp only [planOne] at h
  split at h
  · cases h
    exact ⟨by simpa [PlanOutcome.planList] using inv, Snapshot.Extends.refl snap, trivial⟩
  · cases core : commitCore snap tx.dels tx.adds plan.carry with
    | error e =>
        rw [core] at h
        cases h
        exact ⟨by simpa [PlanOutcome.planList] using inv, Snapshot.Extends.refl snap, trivial⟩
    | ok st =>
        rw [core] at h
        have valid : plan.carry.Valid snap := by
          rw [inv.carry]
          exact inv.ready.carry_valid
        obtain ⟨accepted, spec⟩ := commitCore_spec inv.ready.sound.wf inv.ready.sound.accepted valid core
        have sees := inv.shows
        have dict : tx.updateOn start.base.dict =
            Update.map (QuadTerms.named snap.base.dict) ⟨tx.dels, tx.adds⟩ := by
          rw [inv.ext.base]
          rfl
        have ready := inv.ready.extends spec.inv.ext spec.inv.wf
        simp only at h
        split at h
        · rename_i empty
          cases h
          have same : st.carry = Carry.none.after ms.entries := by
            rw [spec.inv.carry_eq, empty, inv.carry, Carry.after_append, List.append_nil]
          refine ⟨?_, spec.inv.ext, accepted, ?_⟩
          · simp only [PlanOutcome.planList, List.append_nil]
            exact ⟨inv.ext.trans spec.inv.ext, inv.sound, ready, same,
              by rw [spec.inv.ext.epoch]; exact inv.epoch, inv.frames⟩
          · rw [← sees, dict]
            exact spec.idle.mp empty
        · rename_i some_
          cases h
          have spec' : CommitSpec snap (Carry.none.after ms.entries) tx.dels tx.adds st := by
            rw [← inv.carry]
            exact spec
          refine ⟨?_, spec.inv.ext, accepted, ?_, spec.ordered, ?_⟩
          · refine ⟨inv.ext.trans spec.inv.ext, inv.sound, ?_, ?_, ?_, ?_⟩
            · rw [inv.epoch, dict]
              exact inv.ready.plan spec' _
            · simp only [PlanOutcome.planList]
              rw [spec'.inv.carry_eq, Carry.after_append]
              simp [PlannedList.entries]
            · simp only [PlanOutcome.planList, inv.epoch, spec.inv.ext.epoch, List.length_append,
                List.length_cons, List.length_nil]
              omega
            · simp [PlanOutcome.planList, PlannedList.frames, inv.frames]
          · rw [← sees, dict]
            exact fun idle => some_ (spec.idle.mpr idle)
          · refine ⟨walQuads tx.dels tx.adds st.walOps, rfl, ?_, spec.ops_mem⟩
            rw [← sees, dict, ← inv.ext.base, spec.logged, spec.shows]

end Graphy
