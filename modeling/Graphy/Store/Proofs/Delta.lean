import Graphy.Store.Delta
import Mathlib.Data.List.Induction

/-!
# Events of the delta

`eventsAt` is the event list of one quad.  A coherent delta has it in every
index; recording appends to it and garbage collection trims it without changing
what any reader at or above the floor sees.
-/

namespace Graphy

@[simp] theorem unpermute_permute (order : Order) (q : QuadKey) :
    unpermute order (permute order q) = q := by
  have back := Order.toSpo_toXyz order q.triple
  simp only [unpermute, permute]
  rw [show (⟨(order.toXyz q.triple).x, (order.toXyz q.triple).y, (order.toXyz q.triple).z⟩ : Xyz) =
    order.toXyz q.triple from rfl, back]
  rfl

@[simp] theorem permute_unpermute (order : Order) (k : IndexKey) :
    permute order (unpermute order k) = k := by
  have back := Order.toXyz_toSpo order ⟨k.x, k.y, k.z⟩
  simp only [unpermute, permute, QuadKey.triple]
  rw [show (⟨(order.toSpo ⟨k.x, k.y, k.z⟩).s, (order.toSpo ⟨k.x, k.y, k.z⟩).p,
    (order.toSpo ⟨k.x, k.y, k.z⟩).o⟩ : TripleKey) = order.toSpo ⟨k.x, k.y, k.z⟩ from rfl, back]

theorem permute_inj {order : Order} {a b : QuadKey} : permute order a = permute order b ↔ a = b := by
  constructor
  · intro h
    rw [← unpermute_permute order a, h, unpermute_permute]
  · rintro rfl
    rfl

namespace Delta

/-! ## Event lists -/

@[simp] theorem effective_nil (epoch : Nat) : effective [] epoch = none := rfl

theorem effective_append (a b : Events) (epoch : Nat) :
    effective (a ++ b) epoch = (effective b epoch).or (effective a epoch) := by
  simp only [effective, List.reverse_append, List.find?_append]
  cases (b.reverse.find? fun e => decide (e.1 ≤ epoch)) with
  | none => simp
  | some e => simp

/-- What a reader sees of a quad: its effective event, else base membership. -/
def readAt (events : Events) (baseHas : Bool) (epoch : Nat) : Bool :=
  match effective events epoch with
  | some .add => true
  | some .tombstone => false
  | none => baseHas

/-- The kind the last entry for a key leaves. -/
def lastKind (entries : List (QuadKey × DeltaKind)) (q : QuadKey) : Option DeltaKind :=
  (entries.reverse.find? fun e => decide (e.1 = q)).map Prod.snd

@[simp] theorem lastKind_nil (q : QuadKey) : lastKind [] q = none := rfl

theorem lastKind_concat (entries : List (QuadKey × DeltaKind)) (e : QuadKey × DeltaKind)
    (q : QuadKey) : lastKind (entries ++ [e]) q = if e.1 = q then some e.2 else lastKind entries q := by
  by_cases same : e.1 = q
  · simp [lastKind, same]
  · simp [lastKind, same]

theorem lastKind_append (a b : List (QuadKey × DeltaKind)) (q : QuadKey) :
    lastKind (a ++ b) q = (lastKind b q).or (lastKind a q) := by
  simp only [lastKind, List.reverse_append, List.find?_append]
  cases (b.reverse.find? fun e => decide (e.1 = q)) with
  | none => simp
  | some e => simp

/-- The events a transaction's entries add for one key. -/
def eventsOf (entries : List (QuadKey × DeltaKind)) (epoch : Nat) (q : QuadKey) : Events :=
  (entries.filter fun e => decide (e.1 = q)).map fun e => (epoch, e.2)

theorem eventsOf_concat (entries : List (QuadKey × DeltaKind)) (e : QuadKey × DeltaKind)
    (epoch : Nat) (q : QuadKey) :
    eventsOf (entries ++ [e]) epoch q =
      eventsOf entries epoch q ++ (if e.1 = q then [(epoch, e.2)] else []) := by
  by_cases same : e.1 = q
  · simp [eventsOf, same]
  · simp [eventsOf, same]

theorem epoch_of_mem_eventsOf {entries : List (QuadKey × DeltaKind)} {epoch : Nat} {q : QuadKey}
    {e : Nat × DeltaKind} (he : e ∈ eventsOf entries epoch q) : e.1 = epoch := by
  obtain ⟨_, -, rfl⟩ := List.mem_map.mp he
  rfl

/-- A reader at or above the entries' epoch sees their last kind. -/
theorem effective_eventsOf {entries : List (QuadKey × DeltaKind)} {epoch e : Nat} (le : epoch ≤ e)
    (q : QuadKey) : effective (eventsOf entries epoch q) e = lastKind entries q := by
  induction entries using List.reverseRecOn with
  | nil => rfl
  | append_singleton entries last ih =>
      rw [eventsOf_concat, lastKind_concat, effective_append, ih]
      by_cases same : last.1 = q
      · simp [same, effective, le]
      · simp [same]

/-! ## Indexes -/

/-- Events of a quad in one index. -/
def eventsIn (order : Order) (m : OrderedMap IndexKey Events) (q : QuadKey) : Events :=
  (m.get? (permute order q)).getD []

/-- Events of a quad. -/
def eventsAt (d : Delta) (q : QuadKey) : Events :=
  match d.indexes.head? with
  | none => []
  | some (order, m) => eventsIn order m q

/-- All indexes hold the same, non-empty event lists, and there is at least one. -/
structure Coherent (d : Delta) : Prop where
  nonempty : d.indexes ≠ []
  agree : ∀ e ∈ d.indexes, ∀ q, eventsIn e.1 e.2 q = d.eventsAt q
  noEmpty : ∀ e ∈ d.indexes, ∀ k, e.2.get? k ≠ some []

theorem probe_eq (d : Delta) (q : QuadKey) (epoch : Nat) :
    d.probe q epoch = effective (d.eventsAt q) epoch := by
  simp only [probe, eventsAt]
  cases d.indexes.head? with
  | none => rfl
  | some e =>
      simp only [eventsIn]
      cases e.2.get? (permute e.1 q) <;> rfl

theorem eventsIn_pushEvent (epoch : Nat) (order : Order) (m : OrderedMap IndexKey Events)
    (entry : QuadKey × DeltaKind) (q : QuadKey) :
    eventsIn order (pushEvent epoch order m entry) q =
      eventsIn order m q ++ (if entry.1 = q then [(epoch, entry.2)] else []) := by
  simp only [eventsIn, pushEvent, OrderedMap.get?_alter, permute_inj]
  by_cases same : entry.1 = q
  · simp [same]
  · simp [same]

theorem eventsIn_foldl (epoch : Nat) (order : Order) (m : OrderedMap IndexKey Events)
    (entries : List (QuadKey × DeltaKind)) (q : QuadKey) :
    eventsIn order (entries.foldl (pushEvent epoch order) m) q =
      eventsIn order m q ++ eventsOf entries epoch q := by
  induction entries using List.reverseRecOn with
  | nil => simp [eventsOf]
  | append_singleton entries last ih =>
      rw [List.foldl_append, List.foldl_cons, List.foldl_nil, eventsIn_pushEvent, ih, eventsOf_concat,
        List.append_assoc]

theorem noEmpty_foldl {epoch : Nat} {order : Order} {m : OrderedMap IndexKey Events}
    (h : ∀ k, m.get? k ≠ some []) (entries : List (QuadKey × DeltaKind)) (k : IndexKey) :
    (entries.foldl (pushEvent epoch order) m).get? k ≠ some [] := by
  induction entries using List.reverseRecOn with
  | nil => exact h k
  | append_singleton entries last ih =>
      rw [List.foldl_append, List.foldl_cons, List.foldl_nil, pushEvent, OrderedMap.get?_alter]
      split
      · simp
      · exact ih

/-- Recording appends the entries' events to every key's list. -/
theorem eventsAt_record {d : Delta} (coh : d.Coherent) (entries : List (QuadKey × DeltaKind))
    (epoch : Nat) (q : QuadKey) :
    (d.record entries epoch).eventsAt q = d.eventsAt q ++ eventsOf entries epoch q := by
  simp only [eventsAt, record, List.head?_map]
  cases h : d.indexes.head? with
  | none => exact absurd (List.head?_eq_none_iff.mp h) coh.nonempty
  | some e => exact eventsIn_foldl epoch e.1 e.2 entries q

theorem Coherent.record {d : Delta} (coh : d.Coherent) (entries : List (QuadKey × DeltaKind))
    (epoch : Nat) : (d.record entries epoch).Coherent where
  nonempty := by simpa [Delta.record] using coh.nonempty
  agree := by
    intro e he q
    rw [eventsAt_record coh]
    obtain ⟨e0, mem, rfl⟩ := List.mem_map.mp he
    simp only
    rw [eventsIn_foldl, coh.agree e0 mem]
  noEmpty := by
    intro e he k
    obtain ⟨e0, mem, rfl⟩ := List.mem_map.mp he
    exact noEmpty_foldl (coh.noEmpty e0 mem) entries k

theorem coherent_new {orders : List Order} (some_ : orders ≠ []) (s p o g : Nat) :
    (new orders s p o g).Coherent where
  nonempty := by simpa [new] using some_
  agree := by
    intro e he q
    obtain ⟨order, -, rfl⟩ := List.mem_map.mp he
    simp only [eventsAt, new, List.head?_map]
    cases orders.head? <;> rfl
  noEmpty := by
    intro e he k
    obtain ⟨order, -, rfl⟩ := List.mem_map.mp he
    simp

theorem eventsAt_new (orders : List Order) (s p o g : Nat) (q : QuadKey) :
    (new orders s p o g).eventsAt q = [] := by
  simp only [eventsAt, new, List.head?_map]
  cases orders.head? <;> rfl

/-! ## Garbage collection -/

/-- An event list in epoch order, as a single writer leaves it. -/
def EpochSorted (events : Events) : Prop := events.Pairwise fun a b => a.1 ≤ b.1

theorem epochSorted_record {events : Events} (sorted : EpochSorted events)
    {entries : List (QuadKey × DeltaKind)} {epoch : Nat} (below : ∀ e ∈ events, e.1 ≤ epoch)
    (q : QuadKey) : EpochSorted (events ++ eventsOf entries epoch q) := by
  refine List.pairwise_append.mpr ⟨sorted, ?_, ?_⟩
  · rw [eventsOf, List.pairwise_map]
    exact List.pairwise_of_forall fun _ _ => le_refl _
  · intro a ha b hb
    rw [epoch_of_mem_eventsOf hb]
    exact below a ha

/-- The cut of an epoch-ordered list splits it at the floor. -/
theorem cut_spec {events : Events} (sorted : EpochSorted events) (floor : Nat) :
    let cut := lowerBound (fun i => (events[i]?).any fun e => decide (e.1 ≤ floor))
      events.length 0 events.length
    cut ≤ events.length ∧ (∀ e ∈ events.take cut, e.1 ≤ floor) ∧
      ∀ e ∈ events.drop cut, floor < e.1 := by
  intro cut
  have mono : ∀ i j, 0 ≤ i → i ≤ j → j < events.length →
      ((events[j]?).any fun e => decide (e.1 ≤ floor)) = true →
        ((events[i]?).any fun e => decide (e.1 ≤ floor)) = true := by
    intro i j _ hij hj below
    rcases Nat.lt_or_eq_of_le hij with lt | rfl
    · have gi : events[i]? = some events[i] := List.getElem?_eq_getElem (by omega)
      have gj : events[j]? = some events[j] := List.getElem?_eq_getElem hj
      have le := List.pairwise_iff_getElem.mp sorted i j (by omega) hj lt
      simp only [gi, gj, Option.any_some, decide_eq_true_eq] at below ⊢
      omega
    · exact below
  obtain ⟨-, le, low, high⟩ := lowerBound_spec 0 events.length
    (Nat.le_of_eq (Nat.sub_zero events.length)) (Nat.zero_le events.length) mono
  refine ⟨le, ?_, ?_⟩
  · intro e he
    obtain ⟨i, hi⟩ := List.mem_iff_getElem?.mp he
    rw [List.getElem?_take] at hi
    split at hi
    · rename_i lt
      have := low i (Nat.zero_le _) lt
      simpa [hi] using this
    · cases hi
  · intro e he
    obtain ⟨i, hi⟩ := List.mem_iff_getElem?.mp he
    rw [List.getElem?_drop] at hi
    have bound := (List.getElem?_eq_some_iff.mp hi).1
    have := high (cut + i) (Nat.le_add_right _ _) bound
    simpa [hi] using this

@[simp] theorem keepEvents_getD (events : Events) : (keepEvents events).getD [] = events := by
  cases events <;> rfl

/-- Collection keeps a list that is all above the floor; otherwise it drops what
precedes the effective event at the floor, and that event too when it restates
base membership. -/
theorem gcEvents_cases {events : Events} (sorted : EpochSorted events) (floor : Nat)
    (baseHas : Bool) :
    ((∀ e ∈ events, floor < e.1) ∧ gcEvents floor baseHas events = some events) ∨
      ∃ pre e post, events = pre ++ e :: post ∧ (∀ x ∈ pre, x.1 ≤ floor) ∧ e.1 ≤ floor ∧
        (∀ x ∈ post, floor < x.1) ∧ gcEvents floor baseHas events =
          keepEvents (if restatesBase e.2 baseHas then post else e :: post) := by
  obtain ⟨le, low, high⟩ := cut_spec sorted floor
  simp only [gcEvents]
  generalize lowerBound (fun i => (events[i]?).any fun e => decide (e.1 ≤ floor))
    events.length 0 events.length = cut at le low high
  cases cut with
  | zero => exact Or.inl ⟨by simpa using high, by simp⟩
  | succ n =>
      have bound : n < events.length := le
      have get : events[n]? = some events[n] := List.getElem?_eq_getElem bound
      have tail : events.drop n = events[n] :: events.drop (n + 1) :=
        List.drop_eq_getElem_cons bound
      refine Or.inr ⟨events.take n, events[n], events.drop (n + 1), ?_, ?_, ?_, high, ?_⟩
      · rw [← tail, List.take_append_drop]
      · intro x hx
        exact low x ((List.take_sublist_take_left (Nat.le_succ n)).subset hx)
      · refine low _ (List.mem_iff_getElem?.mpr ⟨n, ?_⟩)
        rw [List.getElem?_take, if_pos (Nat.lt_succ_self n), get]
      · simp only [Nat.add_sub_cancel, get, Nat.succ_ne_zero, if_false]
        split
        · rfl
        · rw [tail]

theorem keepEvents_ne (events : Events) : keepEvents events ≠ some [] := by
  cases events <;> simp [keepEvents]

theorem gcEvents_ne {events : Events} (sorted : EpochSorted events) (some_ : events ≠ [])
    (floor : Nat) (baseHas : Bool) : gcEvents floor baseHas events ≠ some [] := by
  rcases gcEvents_cases sorted floor baseHas with ⟨-, same⟩ | ⟨_, _, _, _, _, _, _, eq⟩
  · simpa [same] using some_
  · rw [eq]
    exact keepEvents_ne _

theorem gcEvents_sublist {events : Events} (sorted : EpochSorted events) (floor : Nat)
    (baseHas : Bool) : ((gcEvents floor baseHas events).getD []).Sublist events := by
  rcases gcEvents_cases sorted floor baseHas with ⟨-, same⟩ | ⟨pre, e, post, rfl, -, -, -, eq⟩
  · rw [same]
    exact List.Sublist.refl _
  · rw [eq, keepEvents_getD]
    split
    · exact ((List.sublist_cons_self e post).trans (List.sublist_append_right pre _))
    · exact List.sublist_append_right pre _

/-- Collection acts on each quad's events. -/
theorem eventsAt_gc {d : Delta} (coh : d.Coherent) (sorted : ∀ q, EpochSorted (d.eventsAt q))
    (floor : Nat) (inBase : QuadKey → Bool) :
    (d.gc floor inBase).Coherent ∧ ∀ q, (d.gc floor inBase).eventsAt q =
      (gcEvents floor (inBase q) (d.eventsAt q)).getD [] := by
  have empty (b : Bool) : (gcEvents floor b []).getD [] = [] := by simp [gcEvents, lowerBound]
  have each (e : Order × OrderedMap IndexKey Events) (he : e ∈ d.indexes) (q : QuadKey) :
      eventsIn e.1 (e.2.filterMapVal fun k events =>
        gcEvents floor (inBase (unpermute e.1 k)) events) q =
          (gcEvents floor (inBase q) (d.eventsAt q)).getD [] := by
    rw [← coh.agree e he]
    simp only [eventsIn, OrderedMap.get?_filterMapVal, unpermute_permute]
    cases e.2.get? (permute e.1 q) with
    | none => simp [empty]
    | some events => simp
  have at_ (q : QuadKey) : (d.gc floor inBase).eventsAt q =
      (gcEvents floor (inBase q) (d.eventsAt q)).getD [] := by
    cases h : d.indexes with
    | nil => exact absurd h coh.nonempty
    | cons e rest =>
        have := each e (by simp [h]) q
        simpa only [eventsAt, gc, h, List.map_cons, List.head?_cons] using this
  refine ⟨⟨by simpa [gc] using coh.nonempty, ?_, ?_⟩, at_⟩
  · intro e he q
    rw [at_]
    obtain ⟨e0, mem, rfl⟩ := List.mem_map.mp he
    exact each e0 mem q
  · intro e he k
    obtain ⟨e0, mem, rfl⟩ := List.mem_map.mp he
    simp only [OrderedMap.get?_filterMapVal]
    cases hk : e0.2.get? k with
    | none => simp
    | some events =>
        have same : events = d.eventsAt (unpermute e0.1 k) := by
          rw [← coh.agree e0 mem, eventsIn, permute_unpermute, hk]
          rfl
        have some_ : events ≠ [] := fun e => coh.noEmpty e0 mem k (by rw [hk, e])
        exact gcEvents_ne (same ▸ sorted _) some_ floor _

/-! ## Backfilling an index -/

theorem get?_foldl_alter {order order0 : Order} (entries : List (IndexKey × Events))
    (sorted : entries.Pairwise fun a b => a.1 < b.1) (q : QuadKey) :
    (entries.foldl (fun acc e => acc.alter (permute order (unpermute order0 e.1)) fun _ => e.2)
      (OrderedMap.empty : OrderedMap IndexKey Events)).get? (permute order q) =
        OrderedMap.lookup (permute order0 q) entries := by
  induction entries using List.reverseRecOn with
  | nil => rfl
  | append_singleton entries last ih =>
      obtain ⟨front, -, cross⟩ := List.pairwise_append.mp sorted
      rw [List.foldl_append, List.foldl_cons, List.foldl_nil, OrderedMap.get?_alter, ih front]
      have concat (k : IndexKey) : OrderedMap.lookup k (entries ++ [last]) =
          (OrderedMap.lookup k entries).or (OrderedMap.lookup k [last]) := by
        clear sorted front cross ih
        induction entries with
        | nil => rfl
        | cons a l ih =>
            simp only [List.cons_append, OrderedMap.lookup]
            split
            · rfl
            · exact ih
      rw [concat]
      by_cases same : unpermute order0 last.1 = q
      · have key : last.1 = permute order0 q := by rw [← same, permute_unpermute]
        have missing : OrderedMap.lookup (permute order0 q) entries = none :=
          OrderedMap.lookup_eq_none fun e he => by
            rw [← key]
            exact ne_of_lt (cross e he last (by simp))
        rw [if_pos (by rw [same]), missing]
        simp [OrderedMap.lookup, key]
      · have ne : last.1 ≠ permute order0 q := fun e => same (by rw [e, unpermute_permute])
        rw [if_neg (by rwa [permute_inj])]
        simp [OrderedMap.lookup, ne]

/-- Backfilling an index changes no quad's events. -/
theorem addOrder_spec {d : Delta} (coh : d.Coherent) (order : Order) :
    (d.addOrder order).Coherent ∧ ∀ q, (d.addOrder order).eventsAt q = d.eventsAt q := by
  simp only [addOrder]
  split
  · exact ⟨coh, fun _ => rfl⟩
  · cases h : d.indexes with
    | nil => exact absurd h coh.nonempty
    | cons e rest =>
        simp only [List.head?_cons]
        have at_ (q : QuadKey) : eventsAt { d with
            indexes := e :: rest ++ [(order, e.2.entries.foldl
              (fun acc c => acc.alter (permute order (unpermute e.1 c.1)) fun _ => c.2)
              OrderedMap.empty)] } q = d.eventsAt q := by
          simp [eventsAt, h]
        refine ⟨⟨by simp, ?_, ?_⟩, at_⟩
        · intro c hc q
          rw [at_]
          rcases List.mem_append.mp hc with old | new
          · exact coh.agree c (by rw [h]; exact old) q
          · obtain rfl := List.mem_singleton.mp new
            rw [← coh.agree e (by simp [h]) q]
            simp only [eventsIn]
            rw [get?_foldl_alter _ e.2.sorted]
            rfl
        · intro c hc k
          rcases List.mem_append.mp hc with old | new
          · exact coh.noEmpty c (by rw [h]; exact old) k
          · obtain rfl := List.mem_singleton.mp new
            rw [← permute_unpermute order k]
            simp only
            rw [get?_foldl_alter _ e.2.sorted]
            exact coh.noEmpty e (by simp [h]) _

end Delta

end Graphy
