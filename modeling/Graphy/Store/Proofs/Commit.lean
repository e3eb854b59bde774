import Graphy.Store.Wal
import Graphy.Store.Proofs.Snapshot

/-!
# What a planned transaction does

`Snapshot.shows` is the dataset a transaction being planned sees: the snapshot
under the carried effects.  Planning turns it into the dataset of set semantics,
`Update.apply`, and keeps an operation exactly when it changes something.
-/

namespace Graphy

variable [InlineCodec]

/-- Presence of a key under the carried effects. -/
def Snapshot.presentKey (snap : Snapshot) (carry : Carry) (k : QuadKey) : Bool :=
  match carry k with
  | some kind => decide (kind = .add)
  | none => snap.containsKey k

/-- The quads present under the carried effects. -/
def Snapshot.shows (snap : Snapshot) (carry : Carry) : Set QuadTerms :=
  {q | ∃ k, snap.ValidKey k ∧ snap.decodeKey k = some q ∧ snap.presentKey carry k = true}

/-- The quads of a snapshot. -/
def Snapshot.dataset (snap : Snapshot) : Set QuadTerms := {q | snap.Contains q}

/-- The effects that entries leave over a carry. -/
def Carry.after (carry : Carry) (entries : List (QuadKey × DeltaKind)) : Carry :=
  fun k => (Delta.lastKind entries k).or (carry k)

/-- Carried keys name terms of the snapshot. -/
def Carry.Valid (carry : Carry) (snap : Snapshot) : Prop :=
  ∀ k, carry k ≠ Option.none → snap.ValidKey k

omit [InlineCodec] in
theorem mem_opsUpdate_dels {ops : List (Bool × QuadTerms)} {q : QuadTerms} :
    q ∈ (opsUpdate ops).dels ↔ (true, q) ∈ ops := by
  simp [opsUpdate]

omit [InlineCodec] in
theorem mem_opsUpdate_adds {ops : List (Bool × QuadTerms)} {q : QuadTerms} :
    q ∈ (opsUpdate ops).adds ↔ (false, q) ∈ ops := by
  simp [opsUpdate]

namespace Snapshot

/-- Quads with one key are stored as one quad. -/
theorem resolveKey_inj {snap : Snapshot} (wf : snap.WF) (accepted : snap.base.dict.Accepted)
    {q q' : QuadTerms} {k : QuadKey} (h : snap.resolveKey q = some k)
    (h' : snap.resolveKey q' = some k) : q.named snap.base.dict = q'.named snap.base.dict := by
  have d := ((resolveKey_eq_some_iff wf.dict wf.fits accepted).mp h).2
  have d' := ((resolveKey_eq_some_iff wf.dict wf.fits accepted).mp h').2
  rw [d] at d'
  exact Option.some.inj d'

/-- A shown quad resolves to a present key. -/
theorem resolveKey_of_mem_shows {snap : Snapshot} (wf : snap.WF)
    (accepted : snap.base.dict.Accepted) {carry : Carry} {q : QuadTerms}
    (h : q.named snap.base.dict ∈ snap.shows carry) :
    ∃ k, snap.resolveKey q = some k ∧ snap.presentKey carry k = true := by
  obtain ⟨k, valid, decoded, present⟩ := h
  exact ⟨k, (resolveKey_eq_some_iff wf.dict wf.fits accepted).mpr ⟨valid, decoded⟩, present⟩

theorem mem_shows {snap : Snapshot} (wf : snap.WF) (accepted : snap.base.dict.Accepted)
    {carry : Carry} {q : QuadTerms} {k : QuadKey} (h : snap.resolveKey q = some k) :
    q.named snap.base.dict ∈ snap.shows carry ↔ snap.presentKey carry k = true := by
  constructor
  · intro shown
    obtain ⟨k', resolved, present⟩ := resolveKey_of_mem_shows wf accepted shown
    rw [h] at resolved
    cases resolved
    exact present
  · intro present
    obtain ⟨valid, decoded⟩ := (resolveKey_eq_some_iff wf.dict wf.fits accepted).mp h
    exact ⟨k, valid, decoded, present⟩

/-- Without carried effects the shown quads are the snapshot's. -/
theorem shows_none {snap : Snapshot} (wf : snap.WF) : snap.shows Carry.none = snap.dataset := by
  ext q
  constructor
  · rintro ⟨k, -, decoded, visible⟩
    exact ⟨k, visible, decoded⟩
  · rintro ⟨k, visible, decoded⟩
    exact ⟨k, wf.validKey_of_containsKey visible, decoded, visible⟩

/-- A present key names terms of the snapshot. -/
theorem validKey_of_present {snap : Snapshot} (wf : snap.WF) {carry : Carry}
    (valid : carry.Valid snap) {k : QuadKey} (present : snap.presentKey carry k = true) :
    snap.ValidKey k := by
  cases carried : carry k with
  | some kind => exact valid k (by simp [carried])
  | none =>
      simp only [presentKey, carried] at present
      exact wf.validKey_of_containsKey present

/-- Interning leaves the shown quads alone. -/
theorem shows_extends {snap snap' : Snapshot} (wf : snap.WF) (accepted : snap.base.dict.Accepted)
    (ext : snap.Extends snap') (wf' : snap'.WF) {carry : Carry} (valid : carry.Valid snap) :
    snap'.shows carry = snap.shows carry := by
  have same (k : QuadKey) : snap'.presentKey carry k = snap.presentKey carry k := by
    simp only [presentKey, ext.containsKey]
  ext q
  constructor
  · rintro ⟨k, -, decoded, present⟩
    rw [same] at present
    have here := validKey_of_present wf valid present
    rw [ext.decodeKey accepted wf.dict wf.fits wf'.fits here] at decoded
    exact ⟨k, here, decoded, present⟩
  · rintro ⟨k, here, decoded, present⟩
    refine ⟨k, ext.validKey here, ?_, by rw [same]; exact present⟩
    rw [ext.decodeKey accepted wf.dict wf.fits wf'.fits here]
    exact decoded

end Snapshot

omit [InlineCodec] in
theorem Carry.after_concat (carry : Carry) (entries : List (QuadKey × DeltaKind)) (k : QuadKey)
    (kind : DeltaKind) :
    carry.after (entries ++ [(k, kind)]) = (carry.after entries).insert k kind := by
  funext k'
  simp only [Carry.after, Carry.insert, Delta.lastKind_concat]
  by_cases same : k' = k
  · simp [same]
  · simp [same, Ne.symm same]

omit [InlineCodec] in
@[simp] theorem Carry.after_nil (carry : Carry) : carry.after [] = carry := by
  funext k
  simp [Carry.after]

omit [InlineCodec] in
theorem Carry.after_append (carry : Carry) (a b : List (QuadKey × DeltaKind)) :
    (carry.after a).after b = carry.after (a ++ b) := by
  funext k
  simp only [Carry.after, Delta.lastKind_append, Option.or_assoc]

namespace PlanState

/-! ## Single operations -/

/-- What holds of the plan of one transaction while it grows: it starts from a
snapshot and the effects of the transactions before it. -/
structure Inv (start : Snapshot) (carry : Carry) (st : PlanState) : Prop where
  ext : start.Extends st.snap
  wf : st.snap.WF
  accepted : st.snap.base.dict.Accepted
  carry_eq : st.carry = carry.after st.entries
  valid : st.carry.Valid st.snap

/-- The quads the transaction being planned sees. -/
def shows (st : PlanState) : Set QuadTerms := st.snap.shows st.carry

omit [InlineCodec] in
theorem present_eq (st : PlanState) (k : QuadKey) :
    st.present k = st.snap.presentKey st.carry k := rfl

theorem Inv.keep {start : Snapshot} {carry : Carry} {st : PlanState} (inv : Inv start carry st)
    {k : QuadKey} (valid : st.snap.ValidKey k) (kind : DeltaKind) (op : Bool × Nat) :
    Inv start carry (st.keep k kind op) where
  ext := inv.ext
  wf := inv.wf
  accepted := inv.accepted
  carry_eq := by
    simp only [PlanState.keep, Carry.after_concat, inv.carry_eq]
  valid := by
    intro k' carried
    by_cases same : k' = k
    · rw [same]
      exact valid
    · exact inv.valid k' (by simpa [PlanState.keep, Carry.insert, same] using carried)

theorem Inv.stored {start : Snapshot} {carry : Carry} {st : PlanState} (inv : Inv start carry st)
    (q : QuadTerms) : q.named st.snap.base.dict = q.named start.base.dict := by rw [inv.ext.base]

theorem mem_shows_keep {st : PlanState} (wf : st.snap.WF) (accepted : st.snap.base.dict.Accepted)
    {q : QuadTerms} {k : QuadKey} (resolved : st.snap.resolveKey q = some k) (kind : DeltaKind)
    (op : Bool × Nat) (q' : QuadTerms) : q' ∈ (st.keep k kind op).shows ↔
      if q' = q.named st.snap.base.dict then kind = .add else q' ∈ st.shows := by
  by_cases same : q' = q.named st.snap.base.dict
  · subst same
    rw [if_pos rfl]
    refine (Snapshot.mem_shows wf accepted resolved).trans ?_
    simp [Snapshot.presentKey, PlanState.keep, Carry.insert]
  · rw [if_neg same]
    have stored := ((Snapshot.resolveKey_eq_some_iff wf.dict wf.fits accepted).mp resolved).2
    refine exists_congr fun k' => and_congr_right fun _ => and_congr_right fun decoded => ?_
    have other : k' ≠ k := by
      rintro rfl
      have both : st.snap.decodeKey k' = some q' := decoded
      rw [stored, Option.some.injEq] at both
      exact same both.symm
    simp [Snapshot.presentKey, PlanState.keep, Carry.insert, other]

/-- Planning a delete removes its quad and keeps the operation when the quad was
there. -/
theorem planDel_spec {start : Snapshot} {carry : Carry} {st : PlanState}
    (inv : Inv start carry st) (q : QuadTerms) (i : Nat) :
    Inv start carry (st.planDel (q, i)) ∧
      (∀ q', q' ∈ (st.planDel (q, i)).shows ↔ q' ∈ st.shows ∧ q' ≠ q.named start.base.dict) ∧
      (q.named start.base.dict ∉ st.shows → st.planDel (q, i) = st) ∧
      (q.named start.base.dict ∈ st.shows →
        ∃ k, (st.planDel (q, i)).entries = st.entries ++ [(k, .tombstone)] ∧
          (st.planDel (q, i)).walOps = st.walOps ++ [(true, i)]) := by
  rw [← inv.stored]
  have idle (absent : q.named st.snap.base.dict ∉ st.shows) (eq : st.planDel (q, i) = st) :
      Inv start carry (st.planDel (q, i)) ∧
        (∀ q', q' ∈ (st.planDel (q, i)).shows ↔
          q' ∈ st.shows ∧ q' ≠ q.named st.snap.base.dict) ∧
        (q.named st.snap.base.dict ∉ st.shows → st.planDel (q, i) = st) ∧
        (q.named st.snap.base.dict ∈ st.shows →
          ∃ k, (st.planDel (q, i)).entries = st.entries ++ [(k, .tombstone)] ∧
            (st.planDel (q, i)).walOps = st.walOps ++ [(true, i)]) := by
    refine ⟨by rw [eq]; exact inv, ?_, fun _ => eq, fun h => absurd h absent⟩
    intro q'
    rw [eq]
    exact ⟨fun h => ⟨h, fun same => absent (same ▸ h)⟩, fun h => h.1⟩
  cases resolved : st.snap.resolveKey q with
  | none =>
      refine idle ?_ (by simp [planDel, resolved])
      intro shown
      obtain ⟨k, found, -⟩ := Snapshot.resolveKey_of_mem_shows inv.wf inv.accepted shown
      simp [resolved] at found
  | some k =>
      have shown : q.named st.snap.base.dict ∈ st.shows ↔ _ :=
        Snapshot.mem_shows inv.wf inv.accepted resolved
      cases present : st.present k with
      | false =>
          refine idle ?_ (by simp [planDel, resolved, present])
          rw [present_eq] at present
          exact fun h => by simp [present] at shown; exact shown h
      | true =>
          have eq : st.planDel (q, i) = st.keep k .tombstone (true, i) := by
            simp [planDel, resolved, present]
          have valid := ((Snapshot.resolveKey_eq_some_iff inv.wf.dict inv.wf.fits inv.accepted).mp
            resolved).1
          rw [eq]
          refine ⟨inv.keep valid _ _, ?_, ?_, fun _ => ⟨k, rfl, rfl⟩⟩
          · intro q'
            rw [mem_shows_keep inv.wf inv.accepted resolved]
            by_cases same : q' = q.named st.snap.base.dict <;> simp [same]
          · intro absent
            exact absurd (shown.mpr (by rw [← present_eq]; exact present)) absent

/-- Planning an add puts its quad in and keeps the operation when the quad was
missing. -/
theorem planAdd_spec {start : Snapshot} {carry : Carry} {st : PlanState}
    (inv : Inv start carry st) (q : QuadTerms) (i : Nat) :
    Inv start carry (st.planAdd (q, i)) ∧
      (∀ q', q' ∈ (st.planAdd (q, i)).shows ↔ q' ∈ st.shows ∨ q' = q.named start.base.dict) ∧
      (q.named start.base.dict ∈ st.shows → (st.planAdd (q, i)).entries = st.entries ∧
        (st.planAdd (q, i)).walOps = st.walOps) ∧
      (q.named start.base.dict ∉ st.shows →
        ∃ k, (st.planAdd (q, i)).entries = st.entries ++ [(k, .add)] ∧
          (st.planAdd (q, i)).walOps = st.walOps ++ [(false, i)]) := by
  obtain ⟨ext, fits, resolved⟩ := Snapshot.internKey_spec inv.wf.fits q
  simp only [planAdd]
  generalize hs : (st.snap.internKey q).1 = snap' at ext fits resolved
  generalize hk : (st.snap.internKey q).2 = k at resolved
  have wf' := inv.wf.extends ext fits
  have accepted' : snap'.base.dict.Accepted := by rw [ext.base]; exact inv.accepted
  have inv' : Inv start carry { st with snap := snap' } :=
    ⟨inv.ext.trans ext, wf', accepted', inv.carry_eq, fun k' h => ext.validKey (inv.valid k' h)⟩
  have same : ({ st with snap := snap' } : PlanState).shows = st.shows :=
    Snapshot.shows_extends inv.wf inv.accepted ext wf' inv.valid
  have stored : q.named snap'.base.dict = q.named start.base.dict := inv'.stored q
  have shown : q.named start.base.dict ∈ st.shows ↔
      ({ st with snap := snap' } : PlanState).present k = true := by
    rw [← same, present_eq, ← stored]
    exact Snapshot.mem_shows wf' accepted' resolved
  cases present : ({ st with snap := snap' } : PlanState).present k with
  | true =>
      have there := shown.mpr present
      refine ⟨inv', ?_, fun _ => ⟨rfl, rfl⟩, fun absent => absurd there absent⟩
      intro q'
      simp only [if_true, same]
      exact ⟨Or.inl, fun h => h.elim id fun e => e ▸ there⟩
  | false =>
      have missing : q.named start.base.dict ∉ st.shows := fun h => by simp [shown.mp h] at present
      have valid := ((Snapshot.resolveKey_eq_some_iff wf'.dict wf'.fits accepted').mp resolved).1
      simp only [Bool.false_eq_true, if_false]
      refine ⟨inv'.keep valid _ _, ?_, fun h => absurd h missing, fun _ => ⟨k, rfl, rfl⟩⟩
      intro q'
      rw [mem_shows_keep wf' accepted' resolved, same, stored]
      by_cases eq : q' = q.named start.base.dict <;> simp [eq]

/-! ## The two stages -/

/-- One stage of planning keeps an operation of its kind for the quads it changes;
`stored` is the quad a given one is stored as. -/
structure Stage (stored : QuadTerms → QuadTerms) (dels adds given : List QuadTerms)
    (kind : DeltaKind) (changed : QuadTerms → Prop) (st st' : PlanState) : Prop where
  entries : ∃ new, st'.entries = st.entries ++ new ∧ (∀ e ∈ new, e.2 = kind) ∧
    (new = [] ↔ ∀ q, ¬ changed q)
  ops : ∃ new : List QuadTerms, walQuads dels adds st'.walOps =
    walQuads dels adds st.walOps ++ new.map (fun q => (decide (kind = .tombstone), q)) ∧
      (∀ q ∈ new, q ∈ given) ∧ ∀ q, q ∈ new.map stored ↔ changed q

section Stages

variable {stored : QuadTerms → QuadTerms} {dels adds given : List QuadTerms} {kind : DeltaKind}
  {changed changed' : QuadTerms → Prop} {st st1 st' : PlanState}

omit [InlineCodec] in
theorem Stage.nothing (none_ : ∀ q, ¬ changed q) (entries : st'.entries = st.entries)
    (ops : st'.walOps = st.walOps) : Stage stored dels adds given kind changed st st' where
  entries := ⟨[], by simp [entries], by simp, by simp [none_]⟩
  ops := ⟨[], by simp [ops], by simp, by simp [none_]⟩

omit [InlineCodec] in
theorem Stage.skip {q : QuadTerms} (rest : Stage stored dels adds given kind changed' st1 st')
    (entries : st1.entries = st.entries) (ops : st1.walOps = st.walOps)
    (same : ∀ q, changed q ↔ changed' q) :
    Stage stored dels adds (q :: given) kind changed st st' where
  entries := by simpa only [entries, same] using rest.entries
  ops := by
    obtain ⟨new, eq, sub, mem⟩ := rest.ops
    refine ⟨new, by rw [eq, ops], fun q' h => List.mem_cons_of_mem _ (sub q' h), ?_⟩
    simpa only [same] using mem

omit [InlineCodec] in
/-- A kept operation followed by the rest of the stage. -/
theorem Stage.cons {q : QuadTerms} {k : QuadKey} {op : Bool × Nat}
    (rest : Stage stored dels adds given kind changed' st1 st')
    (entries : st1.entries = st.entries ++ [(k, kind)]) (ops : st1.walOps = st.walOps ++ [op])
    (quad : walQuads dels adds [op] = [(decide (kind = .tombstone), q)])
    (here : ∀ q', changed q' ↔ q' = stored q ∨ changed' q') :
    Stage stored dels adds (q :: given) kind changed st st' where
  entries := by
    obtain ⟨new, eq, kinds, -⟩ := rest.entries
    refine ⟨(k, kind) :: new, by simp [eq, entries], ?_, ?_⟩
    · intro e he
      rcases List.mem_cons.mp he with rfl | he
      · rfl
      · exact kinds e he
    · simpa using ⟨stored q, (here _).mpr (Or.inl rfl)⟩
  ops := by
    obtain ⟨new, eq, sub, mem⟩ := rest.ops
    have split : walQuads dels adds st1.walOps =
        walQuads dels adds st.walOps ++ [(decide (kind = .tombstone), q)] := by
      rw [ops, ← quad]
      simp only [walQuads, List.filterMap_append]
    refine ⟨q :: new, by rw [eq, split]; simp, List.cons_subset_cons q sub, ?_⟩
    intro q'
    rw [List.map_cons, List.mem_cons, mem, here]

end Stages

/-- Planning the deletes takes exactly their quads out. -/
theorem planDels_spec {start : Snapshot} {carry : Carry} {dels : List QuadTerms}
    (adds : List QuadTerms) (l : List (QuadTerms × Nat)) (at_ : ∀ e ∈ l, dels[e.2]? = some e.1)
    {st : PlanState} (inv : Inv start carry st) :
    Inv start carry (l.foldl planDel st) ∧
      (∀ q, q ∈ (l.foldl planDel st).shows ↔
        q ∈ st.shows ∧ q ∉ (l.map Prod.fst).map (QuadTerms.named start.base.dict)) ∧
      Stage (QuadTerms.named start.base.dict) dels adds (l.map Prod.fst) .tombstone
        (fun q => q ∈ (l.map Prod.fst).map (QuadTerms.named start.base.dict) ∧ q ∈ st.shows) st
        (l.foldl planDel st) := by
  induction l generalizing st with
  | nil => exact ⟨inv, by simp, Stage.nothing (by simp) rfl rfl⟩
  | cons e l ih =>
      obtain ⟨q, i⟩ := e
      obtain ⟨inv1, shows1, idle, kept⟩ := planDel_spec inv q i
      obtain ⟨inv', shows', stage⟩ := ih (fun e he => at_ e (List.mem_cons_of_mem _ he)) inv1
      refine ⟨inv', ?_, ?_⟩
      · intro q'
        rw [List.foldl_cons, shows', shows1]
        simp only [List.map_cons, List.mem_cons, not_or]
        tauto
      · by_cases there : q.named start.base.dict ∈ st.shows
        · obtain ⟨k, entries, ops⟩ := kept there
          refine Stage.cons stage entries ops (q := q) ?_ ?_
          · have get : dels[i]? = some q := at_ _ List.mem_cons_self
            simp [walQuads, get]
          · intro q'
            simp only [List.map_cons, List.mem_cons, shows1]
            by_cases same : q' = q.named start.base.dict
            · simp [same, there]
            · simp [same]
        · have eq := idle there
          rw [eq] at stage
          rw [List.foldl_cons, eq]
          refine Stage.skip stage rfl rfl ?_
          intro q'
          simp only [List.map_cons, List.mem_cons]
          by_cases same : q' = q.named start.base.dict
          · simp [same, there]
          · simp [same]

/-- Planning the adds puts exactly their quads in. -/
theorem planAdds_spec {start : Snapshot} {carry : Carry} (dels : List QuadTerms)
    {adds : List QuadTerms} (l : List (QuadTerms × Nat)) (at_ : ∀ e ∈ l, adds[e.2]? = some e.1)
    {st : PlanState} (inv : Inv start carry st) :
    Inv start carry (l.foldl planAdd st) ∧
      (∀ q, q ∈ (l.foldl planAdd st).shows ↔
        q ∈ st.shows ∨ q ∈ (l.map Prod.fst).map (QuadTerms.named start.base.dict)) ∧
      Stage (QuadTerms.named start.base.dict) dels adds (l.map Prod.fst) .add
        (fun q => q ∈ (l.map Prod.fst).map (QuadTerms.named start.base.dict) ∧ q ∉ st.shows) st
        (l.foldl planAdd st) := by
  induction l generalizing st with
  | nil => exact ⟨inv, by simp, Stage.nothing (by simp) rfl rfl⟩
  | cons e l ih =>
      obtain ⟨q, i⟩ := e
      obtain ⟨inv1, shows1, idle, kept⟩ := planAdd_spec inv q i
      obtain ⟨inv', shows', stage⟩ := ih (fun e he => at_ e (List.mem_cons_of_mem _ he)) inv1
      refine ⟨inv', ?_, ?_⟩
      · intro q'
        rw [List.foldl_cons, shows', shows1]
        simp only [List.map_cons, List.mem_cons]
        tauto
      · by_cases there : q.named start.base.dict ∈ st.shows
        · obtain ⟨entries, ops⟩ := idle there
          refine Stage.skip stage entries ops ?_
          intro q'
          simp only [List.map_cons, List.mem_cons, shows1]
          by_cases same : q' = q.named start.base.dict
          · simp [same, there]
          · simp [same]
        · obtain ⟨k, entries, ops⟩ := kept there
          refine Stage.cons stage entries ops (q := q) ?_ ?_
          · have get : adds[i]? = some q := at_ _ List.mem_cons_self
            simp [walQuads, get]
          · intro q'
            simp only [List.map_cons, List.mem_cons, shows1]
            by_cases same : q' = q.named start.base.dict
            · simp [same, there]
            · simp [same]

end PlanState

/-! ## A whole transaction -/

/-- The plan of a transaction over a snapshot and the effects carried so far. -/
structure CommitSpec (start : Snapshot) (carry : Carry) (dels adds : List QuadTerms)
    (st : PlanState) : Prop where
  inv : PlanState.Inv start carry st
  shows : st.shows =
    (Update.map (QuadTerms.named start.base.dict) ⟨dels, adds⟩).apply (start.shows carry)
  /-- Nothing is kept exactly when the transaction changes nothing. -/
  idle : st.entries = [] ↔
    (Update.map (QuadTerms.named start.base.dict) ⟨dels, adds⟩).Idle (start.shows carry)
  /-- Deletes are recorded before adds. -/
  ordered : ∃ d a, st.entries = d ++ a ∧ (∀ e ∈ d, e.2 = .tombstone) ∧ ∀ e ∈ a, e.2 = .add
  /-- The logged operations do what the transaction does. -/
  logged : ((opsUpdate (walQuads dels adds st.walOps)).map (QuadTerms.named start.base.dict)).apply
    (start.shows carry) = st.shows
  ops_mem : ∀ op ∈ walQuads dels adds st.walOps, op.2 ∈ dels ++ adds
  ops_nil : walQuads dels adds st.walOps = [] ↔ st.entries = []

omit [InlineCodec] in
theorem mem_zipIdx_get {α : Type} {l : List α} {e : α × Nat} (he : e ∈ l.zipIdx) :
    l[e.2]? = some e.1 := by
  simpa using List.mem_zipIdx_iff_getElem?.mp he

/-- The state two stages leave. -/
theorem planStages_spec {start : Snapshot} (wf : start.WF) (taken : start.base.dict.Accepted)
    {carry : Carry} (valid : carry.Valid start) (dels adds : List QuadTerms) :
    CommitSpec start carry dels adds (adds.zipIdx.foldl PlanState.planAdd
      (dels.zipIdx.foldl PlanState.planDel ⟨start, carry, [], []⟩)) := by
  have inv0 : PlanState.Inv start carry ⟨start, carry, [], []⟩ :=
    ⟨Snapshot.Extends.refl start, wf, taken, by funext k; simp [Carry.after], valid⟩
  obtain ⟨inv1, shows1, stage1⟩ := PlanState.planDels_spec adds dels.zipIdx
    (fun e he => mem_zipIdx_get he) inv0
  generalize dels.zipIdx.foldl PlanState.planDel ⟨start, carry, [], []⟩ = mid at inv1 shows1 stage1
  obtain ⟨inv2, shows2, stage2⟩ := PlanState.planAdds_spec dels adds.zipIdx
    (fun e he => mem_zipIdx_get he) inv1
  generalize adds.zipIdx.foldl PlanState.planAdd mid = last at inv2 shows2 stage2
  have first : (⟨start, carry, [], []⟩ : PlanState).shows = start.shows carry := rfl
  simp only [List.zipIdx_map_fst, first] at shows1 stage1 shows2 stage2
  obtain ⟨d, entries1, kinds1, none1⟩ := stage1.entries
  obtain ⟨a, entries2, kinds2, none2⟩ := stage2.entries
  obtain ⟨od, ops1, sub1, mem1⟩ := stage1.ops
  obtain ⟨oa, ops2, sub2, mem2⟩ := stage2.ops
  have entries : last.entries = d ++ a := by simpa [entries1] using entries2
  have ops : walQuads dels adds last.walOps =
      od.map (fun q => (true, q)) ++ oa.map (fun q => (false, q)) := by
    rw [ops2, ops1]
    simp [walQuads]
  have opsDels : (opsUpdate (walQuads dels adds last.walOps)).dels = od := by
    simp [opsUpdate, ops, List.filter_map, Function.comp_def]
  have opsAdds : (opsUpdate (walQuads dels adds last.walOps)).adds = oa := by
    simp [opsUpdate, ops, List.filter_map, Function.comp_def]
  have memShows (q : QuadTerms) : q ∈ last.shows ↔
      q ∈ (Update.map (QuadTerms.named start.base.dict) ⟨dels, adds⟩).apply (start.shows carry) := by
    rw [shows2, shows1, Update.mem_apply]
    rfl
  have idle : last.entries = [] ↔
      (Update.map (QuadTerms.named start.base.dict) ⟨dels, adds⟩).Idle (start.shows carry) := by
    rw [entries, List.append_eq_nil_iff, none1, none2]
    constructor
    · rintro ⟨noDel, noAdd⟩
      refine ⟨fun q del here => noDel q ⟨del, here⟩, fun q add => ?_⟩
      by_contra missing
      exact noAdd q ⟨add, fun h => missing ((shows1 q).mp h).1⟩
    · rintro ⟨delIdle, addIdle⟩
      refine ⟨fun q h => delIdle q h.1 h.2, fun q h => h.2 ?_⟩
      exact (shows1 q).mpr ⟨addIdle q h.1, fun del => delIdle q del (addIdle q h.1)⟩
  refine ⟨inv2, Set.ext memShows, idle, ⟨d, a, entries, kinds1, kinds2⟩, ?_, ?_, ?_⟩
  · ext q
    rw [shows2, shows1, Update.mem_apply, Update.map, opsDels, opsAdds, mem1, mem2, shows1]
    tauto
  · intro op hop
    rw [ops] at hop
    rcases List.mem_append.mp hop with h | h
    · obtain ⟨q, hq, rfl⟩ := List.mem_map.mp h
      exact List.mem_append_left _ (sub1 q hq)
    · obtain ⟨q, hq, rfl⟩ := List.mem_map.mp h
      exact List.mem_append_right _ (sub2 q hq)
  · have delNil : od = [] ↔ d = [] := by
      rw [none1, ← List.map_eq_nil_iff (f := QuadTerms.named start.base.dict),
        List.eq_nil_iff_forall_not_mem]
      simp only [mem1]
    have addNil : oa = [] ↔ a = [] := by
      rw [none2, ← List.map_eq_nil_iff (f := QuadTerms.named start.base.dict),
        List.eq_nil_iff_forall_not_mem]
      simp only [mem2]
    rw [ops, entries, List.append_eq_nil_iff, List.append_eq_nil_iff, List.map_eq_nil_iff,
      List.map_eq_nil_iff, delNil, addNil]

/-- A transaction the planner accepts. -/
def TxValid (dels adds : List QuadTerms) : Prop := (dels ++ adds).forM validateQuad = .ok ()

theorem commitCore_spec {start : Snapshot} (wf : start.WF) (taken : start.base.dict.Accepted)
    {carry : Carry} (valid : carry.Valid start) {dels adds : List QuadTerms} {st : PlanState}
    (h : commitCore start dels adds carry = .ok st) :
    TxValid dels adds ∧ CommitSpec start carry dels adds st := by
  simp only [commitCore] at h
  cases check : (dels ++ adds).forM validateQuad with
  | error e =>
      rw [check] at h
      cases h
  | ok u =>
      rw [check] at h
      cases h
      exact ⟨check, planStages_spec wf taken valid dels adds⟩

/-- A valid transaction is planned. -/
theorem commitCore_of_valid (start : Snapshot) (carry : Carry) {dels adds : List QuadTerms}
    (h : TxValid dels adds) : ∃ st, commitCore start dels adds carry = .ok st := by
  simp only [commitCore]
  rw [show (dels ++ adds).forM validateQuad = .ok () from h]
  exact ⟨_, rfl⟩

end Graphy
