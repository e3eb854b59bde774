import Graphy.Store.Proofs.DeltaRange

/-!
# The indexes of a delta agree

Every index of a delta holds one ledger: a map from quads to their events in epoch
order.  Recording appends to it, collection prunes it, backfilling an index leaves it
as it is; the counters count it, and a collected range reads it.
-/

namespace Graphy

/-- A call that changes the events of a delta. -/
inductive DeltaOp where
  | record (entries : List (QuadKey × DeltaKind)) (epoch : Nat)
  | gc (floor : Nat) (inBase : QuadKey → Bool)
  | addOrder (order : Order)

/-- The events of every quad. -/
abbrev Ledger := QuadKey → Events

namespace DeltaOp

def run (d : Delta) : DeltaOp → Delta
  | .record entries epoch => d.record entries epoch
  | .gc floor inBase => d.gc floor inBase
  | .addOrder order => d.addOrder order

/-- What a call does to the ledger. -/
def ledger (held : Ledger) : DeltaOp → Ledger
  | .record entries epoch => fun q => held q ++ Delta.eventsOf entries epoch q
  | .gc floor inBase => fun q => (Delta.gcEvents floor (inBase q) (held q)).getD []
  | .addOrder _ => held

/-- What a call adds to everything ever recorded. -/
def history (recorded : Ledger) : DeltaOp → Ledger
  | .record entries epoch => fun q => recorded q ++ Delta.eventsOf entries epoch q
  | .gc .. => recorded
  | .addOrder _ => recorded

/-- The order a call adds an index for. -/
def order? : DeltaOp → Option Order
  | .addOrder order => some order
  | _ => none

/-- Epochs of the records do not decrease. -/
def Ascending (last : Nat) : List DeltaOp → Prop
  | [] => True
  | .record _ epoch :: ops => last ≤ epoch ∧ Ascending epoch ops
  | .gc .. :: ops => Ascending last ops
  | .addOrder _ :: ops => Ascending last ops

end DeltaOp

namespace Delta

/-- The delta after some calls, from an empty one. -/
def after (orders : List Order) (subjects predicates objects graphs : Nat)
    (ops : List DeltaOp) : Delta :=
  ops.foldl DeltaOp.run (new orders subjects predicates objects graphs)

/-- The ledger after some calls. -/
def ledgerAfter (ops : List DeltaOp) : Ledger := ops.foldl DeltaOp.ledger fun _ => []

/-- Everything some calls recorded. -/
def historyAfter (ops : List DeltaOp) : Ledger := ops.foldl DeltaOp.history fun _ => []

/-- The counters count what the first index holds. -/
structure Counted (d : Delta) : Prop where
  events : d.events = countEvents d.indexes
  tombstones : d.tombstones = countTombstones d.indexes

theorem sum_pushEvents (epoch : Nat) (order : Order) (m : OrderedMap IndexKey Events)
    (entries : List (QuadKey × DeltaKind)) (p : Nat × DeltaKind → Bool) :
    ((entries.foldl (pushEvent epoch order) m).entries.map fun e => e.2.countP p).sum =
      (m.entries.map fun e => e.2.countP p).sum + entries.countP fun e => p (epoch, e.2) := by
  induction entries generalizing m with
  | nil => rfl
  | cons entry entries ih =>
      have step := OrderedMap.sum_alter m (permute order entry.1)
        (fun events => events.getD [] ++ [(epoch, entry.2)]) (fun events => events.countP p)
      have one : List.countP p ((m.get? (permute order entry.1)).getD [] ++ [(epoch, entry.2)]) =
          (m.get? (permute order entry.1)).elim 0 (fun events => events.countP p) +
            (if p (epoch, entry.2) then 1 else 0) := by
        rw [List.countP_append, List.countP_singleton]
        cases m.get? (permute order entry.1) <;> rfl
      rw [one] at step
      rw [List.foldl_cons, ih, pushEvent, List.countP_cons]
      omega

theorem counted_new (orders : List Order) (s p o g : Nat) : (new orders s p o g).Counted := by
  have empty : countEvents (new orders s p o g).indexes = 0 ∧
      countTombstones (new orders s p o g).indexes = 0 := by
    simp only [countEvents, countTombstones, new, List.head?_map]
    cases orders.head? <;> exact ⟨rfl, rfl⟩
  exact ⟨empty.1.symm, empty.2.symm⟩

theorem Counted.record {d : Delta} (counted : d.Counted) (some_ : d.indexes ≠ [])
    (entries : List (QuadKey × DeltaKind)) (epoch : Nat) : (d.record entries epoch).Counted := by
  obtain ⟨e, rest, first⟩ := List.exists_cons_of_ne_nil some_
  have all := sum_pushEvents epoch e.1 e.2 entries fun _ => true
  have tombs := sum_pushEvents epoch e.1 e.2 entries fun ev => decide (ev.2 = .tombstone)
  simp only [List.countP_true] at all
  constructor
  · have old := counted.events
    simp only [countEvents, first, List.head?_cons] at old
    simp only [Delta.record, countEvents, first, List.map_cons, List.head?_cons]
    rw [all, ← old]
  · have old := counted.tombstones
    simp only [countTombstones, first, List.head?_cons] at old
    simp only [Delta.record, countTombstones, first, List.map_cons, List.head?_cons]
    rw [tombs, ← old]

theorem counted_gc (d : Delta) (floor : Nat) (inBase : QuadKey → Bool) :
    (d.gc floor inBase).Counted := ⟨rfl, rfl⟩

theorem Counted.addOrder {d : Delta} (counted : d.Counted) (order : Order) :
    (d.addOrder order).Counted := by
  rw [Delta.addOrder]
  split
  · exact counted
  · cases first : d.indexes with
    | nil => exact counted
    | cons e rest =>
        have events := counted.events
        have tombstones := counted.tombstones
        simp only [countEvents, countTombstones, first, List.head?_cons] at events tombstones
        exact ⟨events, tombstones⟩

/-! ## One ledger -/

/-- The entries of an index under their quads. -/
def quads (e : Order × OrderedMap IndexKey Events) : List (QuadKey × Events) :=
  e.2.entries.map fun c => (unpermute e.1 c.1, c.2)

theorem Coherent.get? {d : Delta} (coh : d.Coherent) {e : Order × OrderedMap IndexKey Events}
    (he : e ∈ d.indexes) (q : QuadKey) : e.2.get? (permute e.1 q) = keepEvents (d.eventsAt q) := by
  have agree := coh.agree e he q
  have some_ := coh.noEmpty e he (permute e.1 q)
  rw [← agree, eventsIn]
  cases get : e.2.get? (permute e.1 q) with
  | none => rfl
  | some events =>
      cases events with
      | nil => exact absurd get some_
      | cons ev events => rfl

theorem Coherent.mem_quads {d : Delta} (coh : d.Coherent) {e : Order × OrderedMap IndexKey Events}
    (he : e ∈ d.indexes) {q : QuadKey} {events : Events} :
    (q, events) ∈ quads e ↔ keepEvents (d.eventsAt q) = some events := by
  rw [← coh.get? he, ← OrderedMap.mem_entries_iff, quads]
  constructor
  · intro h
    obtain ⟨c, mem, same⟩ := List.mem_map.mp h
    obtain ⟨rfl, rfl⟩ := Prod.mk.inj same
    rwa [permute_unpermute]
  · intro h
    exact List.mem_map.mpr ⟨_, h, by rw [unpermute_permute]⟩

theorem nodup_quads (e : Order × OrderedMap IndexKey Events) : (quads e).Nodup := by
  rw [quads, List.Nodup, List.pairwise_map]
  refine e.2.sorted.imp ?_
  intro a b lt same
  have keys := congrArg (permute e.1) (Prod.mk.inj same).1
  rw [permute_unpermute, permute_unpermute] at keys
  exact absurd keys (ne_of_lt lt)

/-- Any two indexes have the same entries. -/
theorem Coherent.perm {d : Delta} (coh : d.Coherent) {e e' : Order × OrderedMap IndexKey Events}
    (he : e ∈ d.indexes) (he' : e' ∈ d.indexes) : (quads e).Perm (quads e') := by
  rw [List.perm_ext_iff_of_nodup (nodup_quads e) (nodup_quads e')]
  intro c
  rw [coh.mem_quads he, coh.mem_quads he']

theorem Coherent.sum_eq {d : Delta} (coh : d.Coherent) {e e' : Order × OrderedMap IndexKey Events}
    (he : e ∈ d.indexes) (he' : e' ∈ d.indexes) (w : Events → Nat) :
    (e.2.entries.map fun c => w c.2).sum = (e'.2.entries.map fun c => w c.2).sum := by
  have sums := ((coh.perm he he').map fun c => w c.2).sum_nat
  simpa only [quads, List.map_map, Function.comp_def] using sums

/-- The counters count what any index holds. -/
theorem Counted.of_index {d : Delta} (counted : d.Counted) (coh : d.Coherent)
    {e : Order × OrderedMap IndexKey Events} (he : e ∈ d.indexes) :
    d.events = (e.2.entries.map fun c => c.2.length).sum ∧
      d.tombstones =
        (e.2.entries.map fun c => c.2.countP fun ev => decide (ev.2 = .tombstone)).sum := by
  obtain ⟨first, rest, indexes⟩ := List.exists_cons_of_ne_nil coh.nonempty
  have head : first ∈ d.indexes := by rw [indexes]; exact List.mem_cons_self
  have events := counted.events
  have tombstones := counted.tombstones
  simp only [countEvents, countTombstones, indexes, List.head?_cons] at events tombstones
  rw [events, tombstones]
  exact ⟨coh.sum_eq head he _, coh.sum_eq head he _⟩

/-- A delta that holds a ledger, with every epoch in it at most `last`. -/
structure Keeps (d : Delta) (orders : List Order) (held : Ledger) (last : Nat) : Prop where
  coherent : d.Coherent
  counted : d.Counted
  covers : d.Covers orders
  holds : ∀ q, d.eventsAt q = held q
  sorted : ∀ q, EpochSorted (held q)
  below : ∀ q, ∀ e ∈ held q, e.1 ≤ last

theorem keeps_new {orders : List Order} (some_ : orders ≠ []) (s p o g : Nat) :
    (new orders s p o g).Keeps orders (fun _ => []) 0 where
  coherent := coherent_new some_ s p o g
  counted := counted_new orders s p o g
  covers := Covers.new orders s p o g
  holds := eventsAt_new orders s p o g
  sorted _ := List.Pairwise.nil
  below := by
    intro q e he
    cases he

theorem Keeps.record {d : Delta} {orders : List Order} {held : Ledger} {last : Nat}
    (keeps : d.Keeps orders held last) (entries : List (QuadKey × DeltaKind)) {epoch : Nat}
    (le : last ≤ epoch) :
    (d.record entries epoch).Keeps orders (fun q => held q ++ eventsOf entries epoch q) epoch where
  coherent := keeps.coherent.record entries epoch
  counted := keeps.counted.record keeps.coherent.nonempty entries epoch
  covers := keeps.covers.record entries epoch
  holds q := by rw [eventsAt_record keeps.coherent, keeps.holds]
  sorted q := epochSorted_record (keeps.sorted q)
    (fun e he => le_trans (keeps.below q e he) le) q
  below := by
    intro q e he
    rcases List.mem_append.mp he with old | new
    · exact le_trans (keeps.below q e old) le
    · exact le_of_eq (epoch_of_mem_eventsOf new)

theorem Keeps.gc {d : Delta} {orders : List Order} {held : Ledger} {last : Nat}
    (keeps : d.Keeps orders held last) (floor : Nat) (inBase : QuadKey → Bool) :
    (d.gc floor inBase).Keeps orders (fun q => (gcEvents floor (inBase q) (held q)).getD [])
      last where
  coherent := (eventsAt_gc keeps.coherent (fun q => by rw [keeps.holds]; exact keeps.sorted q)
    floor inBase).1
  counted := counted_gc d floor inBase
  covers := keeps.covers.gc floor inBase
  holds q := by
    rw [(eventsAt_gc keeps.coherent (fun q => by rw [keeps.holds]; exact keeps.sorted q)
      floor inBase).2, keeps.holds]
  sorted q := (keeps.sorted q).sublist (gcEvents_sublist (keeps.sorted q) floor (inBase q))
  below q e he :=
    keeps.below q e ((gcEvents_sublist (keeps.sorted q) floor (inBase q)).subset he)

theorem Keeps.addOrder {d : Delta} {orders : List Order} {held : Ledger} {last : Nat}
    (keeps : d.Keeps orders held last) (order : Order) :
    (d.addOrder order).Keeps (order :: orders) held last where
  coherent := (addOrder_spec keeps.coherent order).1
  counted := keeps.counted.addOrder order
  covers := keeps.covers.addOrder keeps.coherent.nonempty order
  holds q := ((addOrder_spec keeps.coherent order).2 q).trans (keeps.holds q)
  sorted := keeps.sorted
  below := keeps.below

/-- The orders a delta serves after some calls. -/
def ordersAfter (orders : List Order) (ops : List DeltaOp) : List Order :=
  ops.foldl (fun orders op => op.order?.toList ++ orders) orders

/-- Through any calls the delta keeps the ledger that the calls make. -/
theorem Keeps.run {d : Delta} {orders : List Order} {held : Ledger} {last : Nat}
    (keeps : d.Keeps orders held last) {ops : List DeltaOp}
    (ascending : DeltaOp.Ascending last ops) :
    ∃ last', (ops.foldl DeltaOp.run d).Keeps (ordersAfter orders ops)
      (ops.foldl DeltaOp.ledger held) last' := by
  induction ops generalizing d orders held last with
  | nil => exact ⟨last, keeps⟩
  | cons op ops ih =>
      cases op with
      | record entries epoch => exact ih (keeps.record entries ascending.1) ascending.2
      | gc floor inBase => exact ih (keeps.gc floor inBase) ascending
      | addOrder order => exact ih (keeps.addOrder order) ascending

/-! ## What a reader sees -/

/-- The latest event at or below an epoch. -/
def latest (events : Events) (epoch : Nat) : Option DeltaKind :=
  ((events.filter fun e => decide (e.1 ≤ epoch)).getLast?).map Prod.snd

theorem effective_eq_latest (events : Events) (epoch : Nat) :
    effective events epoch = latest events epoch := by
  rw [effective, latest, ← List.head?_filter, List.filter_reverse, List.head?_reverse]

/-- What collections took from what was recorded: nothing that a reader sees, but for events
that restate base membership. -/
def Recalls (ops : List DeltaOp) (epoch : Nat) (q : QuadKey) (held recorded : Events) : Prop :=
  effective held epoch = effective recorded epoch ∨
    effective held epoch = none ∧ ∃ kind floor inBase, effective recorded epoch = some kind ∧
      DeltaOp.gc floor inBase ∈ ops ∧ restatesBase kind (inBase q) = true

theorem Recalls.record {ops : List DeltaOp} {epoch : Nat} {q : QuadKey} {held recorded : Events}
    (recalls : Recalls ops epoch q held recorded) (events : Events) :
    Recalls ops epoch q (held ++ events) (recorded ++ events) := by
  simp only [Recalls, effective_append]
  cases effective events epoch with
  | some kind => exact Or.inl rfl
  | none => exact recalls

/-- A reader at or above the floor misses at most an event that restates base membership. -/
theorem effective_gcEvents {events : Events} (sorted : EpochSorted events) {floor epoch : Nat}
    (le : floor ≤ epoch) (baseHas : Bool) :
    effective ((gcEvents floor baseHas events).getD []) epoch = effective events epoch ∨
      effective ((gcEvents floor baseHas events).getD []) epoch = none ∧
        ∃ kind, effective events epoch = some kind ∧ restatesBase kind baseHas = true := by
  rcases gcEvents_cases sorted floor baseHas with ⟨-, same⟩ | ⟨pre, e, post, rfl, -, at_, -, eq⟩
  · rw [same]
    exact Or.inl rfl
  · have one : effective [e] epoch = some e.2 := by
      have below : e.1 ≤ epoch := le_trans at_ le
      simp [effective, below]
    have whole : effective (pre ++ e :: post) epoch = (effective post epoch).or (some e.2) := by
      have split : pre ++ e :: post = pre ++ ([e] ++ post) := rfl
      rw [split, effective_append, effective_append, one]
      cases effective post epoch <;> rfl
    rw [eq, keepEvents_getD, whole]
    cases restates : restatesBase e.2 baseHas with
    | false =>
        have kept : effective (e :: post) epoch = (effective post epoch).or (some e.2) := by
          have split : e :: post = [e] ++ post := rfl
          rw [split, effective_append, one]
        rw [if_neg Bool.false_ne_true, kept]
        exact Or.inl rfl
    | true =>
        rw [if_pos rfl]
        cases effective post epoch with
        | some kind => exact Or.inl rfl
        | none => exact Or.inr ⟨rfl, e.2, rfl, restates⟩

theorem Recalls.gc {ops : List DeltaOp} {epoch : Nat} {q : QuadKey} {held recorded : Events}
    (recalls : Recalls ops epoch q held recorded) (sorted : EpochSorted held) {floor : Nat}
    {inBase : QuadKey → Bool} (mem : DeltaOp.gc floor inBase ∈ ops) (le : floor ≤ epoch) :
    Recalls ops epoch q ((gcEvents floor (inBase q) held).getD []) recorded := by
  rcases effective_gcEvents sorted le (inBase q) with same | ⟨gone, kind, was, restates⟩
  · rw [Recalls, same]
    exact recalls
  · refine Or.inr ⟨gone, ?_⟩
    rcases recalls with same | ⟨none_, -⟩
    · exact ⟨kind, floor, inBase, same ▸ was, mem, restates⟩
    · rw [was] at none_
      cases none_

/-- Through any calls, readers at or above every floor recall what was recorded. -/
theorem recalls_run {d : Delta} {orders : List Order} {held recorded : Ledger} {last : Nat}
    (keeps : d.Keeps orders held last) {all ops : List DeltaOp} (within : ∀ op ∈ ops, op ∈ all)
    (ascending : DeltaOp.Ascending last ops) {epoch : Nat} {q : QuadKey}
    (above : ∀ floor inBase, DeltaOp.gc floor inBase ∈ all → floor ≤ epoch)
    (recalls : Recalls all epoch q (held q) (recorded q)) :
    Recalls all epoch q (ops.foldl DeltaOp.ledger held q)
      (ops.foldl DeltaOp.history recorded q) := by
  induction ops generalizing d orders held recorded last with
  | nil => exact recalls
  | cons op ops ih =>
      have rest : ∀ op ∈ ops, op ∈ all := fun op mem => within op (List.mem_cons_of_mem _ mem)
      cases op with
      | record entries e =>
          exact ih (keeps.record entries ascending.1) rest ascending.2 (recalls.record _)
      | gc floor inBase =>
          have mem := within _ List.mem_cons_self
          exact ih (keeps.gc floor inBase) rest ascending
            (recalls.gc (keeps.sorted q) mem (above floor inBase mem))
      | addOrder order => exact ih (keeps.addOrder order) rest ascending recalls

theorem mem_ordersAfter {orders : List Order} {ops : List DeltaOp} {order : Order}
    (h : order ∈ orders ∨ DeltaOp.addOrder order ∈ ops) : order ∈ ordersAfter orders ops := by
  induction ops generalizing orders with
  | nil =>
      rcases h with given | added
      · exact given
      · cases added
  | cons op ops ih =>
      apply ih
      rcases h with given | added
      · exact Or.inl (List.mem_append_right _ given)
      · rcases List.mem_cons.mp added with rfl | later
        · exact Or.inl List.mem_cons_self
        · exact Or.inr later

/-- Every index of the delta holds the ledger, the counters count it and collected ranges
read it. -/
structure Agrees (d : Delta) (served : Order → Prop) (held : Ledger) : Prop where
  index : ∀ e ∈ d.indexes, ∀ q, e.2.get? (permute e.1 q) = keepEvents (held q)
  sorted : ∀ q, EpochSorted (held q)
  events : ∀ e ∈ d.indexes, d.events = (e.2.entries.map fun c => c.2.length).sum
  tombstones : ∀ e ∈ d.indexes, d.tombstones =
    (e.2.entries.map fun c => c.2.countP fun ev => decide (ev.2 = .tombstone)).sum
  range : ∀ order, served order → ∀ pat epoch q kind,
    ((q, kind) ∈ d.collectRange order pat epoch ↔
      pat.Matches q ∧ latest (held q) epoch = some kind)
  ascending : ∀ order, served order → ∀ pat epoch, (d.collectRange order pat epoch).Pairwise
    fun a b => order.scanKey a.1 < order.scanKey b.1

/-- After any calls whose records do not go back in epoch, the indexes agree on the ledger the
calls make, and a reader at or above every floor misses nothing that was recorded but what
restates the base. -/
theorem indexes_agree {orders : List Order} (some_ : orders ≠ [])
    (subjects predicates objects graphs : Nat) {ops : List DeltaOp}
    (ascending : DeltaOp.Ascending 0 ops) :
    (after orders subjects predicates objects graphs ops).Agrees
        (fun order => order ∈ orders ∨ DeltaOp.addOrder order ∈ ops) (ledgerAfter ops) ∧
      ∀ epoch, (∀ floor inBase, DeltaOp.gc floor inBase ∈ ops → floor ≤ epoch) → ∀ q,
        latest (ledgerAfter ops q) epoch = latest (historyAfter ops q) epoch ∨
          latest (ledgerAfter ops q) epoch = none ∧ ∃ kind floor inBase,
            latest (historyAfter ops q) epoch = some kind ∧ DeltaOp.gc floor inBase ∈ ops ∧
              restatesBase kind (inBase q) = true := by
  have start := keeps_new some_ subjects predicates objects graphs
  obtain ⟨last, keeps⟩ := start.run ascending
  have same : ∀ q, (after orders subjects predicates objects graphs ops).eventsAt q =
      ledgerAfter ops q := keeps.holds
  refine ⟨⟨?_, keeps.sorted, ?_, ?_, ?_, ?_⟩, ?_⟩
  · intro e he q
    rw [← same]
    exact keeps.coherent.get? he q
  · exact fun e he => (keeps.counted.of_index keeps.coherent he).1
  · exact fun e he => (keeps.counted.of_index keeps.coherent he).2
  · intro order served pat epoch q kind
    rw [← effective_eq_latest, ← same, ← probe_eq]
    exact mem_collectRange keeps.coherent (keeps.covers order (mem_ordersAfter served))
  · intro order served
    exact ascending_collectRange (keeps.covers order (mem_ordersAfter served))
  · intro epoch above q
    simp only [← effective_eq_latest]
    exact recalls_run start (fun op mem => mem) ascending above (Or.inl rfl)

/-- Two quads recorded, one deleted and collected, and an index added. -/
def twoQuads : List DeltaOp :=
  [.record [(⟨.dict 0, .dict 0, .dict 0, .dict 0⟩, .add),
      (⟨.dict 1, .dict 0, .dict 0, .dict 0⟩, .add)] 1,
    .record [(⟨.dict 0, .dict 0, .dict 0, .dict 0⟩, .tombstone)] 2,
    .gc 2 (fun _ => false), .addOrder .pos]

theorem indexes_agree_twoQuads :
    (after [.spo] 2 1 1 1 twoQuads).Agrees
      (fun order => order ∈ [Order.spo] ∨ DeltaOp.addOrder order ∈ twoQuads)
      (ledgerAfter twoQuads) := by
  have ascending : DeltaOp.Ascending 0 twoQuads := ⟨Nat.zero_le 1, Nat.le_succ 1, trivial⟩
  exact (indexes_agree (List.cons_ne_nil _ _) 2 1 1 1 ascending).1

end Delta

end Graphy
