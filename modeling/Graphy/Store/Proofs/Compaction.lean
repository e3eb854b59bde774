import Graphy.Store.Proofs.DeltaAgreement
import Graphy.Store.Proofs.Identity

/-!
# What a compaction keeps

While the delta is folded, a key of the tip and its fresh key stand for the same quad, so
the kept events say of every quad what the events of the tip say.
-/

namespace Graphy

variable [InlineCodec]

omit [InlineCodec] in
theorem Delta.Extends.resolve {d d' : Delta} (h : d.Extends d') {t : Bytes} {pos : TermPos} {v : Col}
    (resolved : d.resolve t pos = some v) : d'.resolve t pos = some v := by
  obtain ⟨i, found, rfl⟩ := Option.map_eq_some_iff.mp resolved
  simp only [Delta.resolve, OverlaySpace.resolve, Snapshot.idxOf?_prefix (h.terms pos) found,
    h.space_base pos, Option.map_some]

omit [InlineCodec] in
/-- A member of a list has a partner in the other. -/
theorem exists_related {α β : Type} {R : α → β → Prop} {l : List α} {l' : List β}
    (related : List.Forall₂ R l l') {a : α} (mem : a ∈ l) : ∃ b ∈ l', R a b := by
  induction related with
  | nil => cases mem
  | cons here rest ih =>
      rcases List.mem_cons.mp mem with rfl | later
      · exact ⟨_, List.mem_cons_self, here⟩
      · obtain ⟨b, inside, same⟩ := ih later
        exact ⟨b, List.mem_cons_of_mem _ inside, same⟩

/-! ## Effective events -/

namespace Delta

omit [InlineCodec] in
theorem collectEffective_eq {d : Delta} {e : Order × OrderedMap IndexKey Events}
    {rest : List (Order × OrderedMap IndexKey Events)} (indexes : d.indexes = e :: rest)
    (epoch : Nat) : d.collectEffective epoch =
      (quads e).filterMap fun c => (effective c.2 epoch).map fun kind => (c.1, kind) := by
  simp only [collectEffective, indexes, List.head?_cons, quads, List.filterMap_map]
  rfl

omit [InlineCodec] in
/-- The effective events are those a reader at the epoch probes. -/
theorem mem_collectEffective {d : Delta} (coh : d.Coherent) {epoch : Nat} {k : QuadKey}
    {kind : DeltaKind} :
    (k, kind) ∈ d.collectEffective epoch ↔ effective (d.eventsAt k) epoch = some kind := by
  obtain ⟨e, rest, indexes⟩ := List.exists_cons_of_ne_nil coh.nonempty
  have head : e ∈ d.indexes := by
    rw [indexes]
    exact List.mem_cons_self
  rw [collectEffective_eq indexes, List.mem_filterMap]
  constructor
  · rintro ⟨⟨k', events⟩, mem, same⟩
    obtain ⟨kind', found, eq⟩ := Option.map_eq_some_iff.mp same
    cases eq
    have kept := (coh.mem_quads head).mp mem
    rw [← keepEvents_getD (d.eventsAt k'), kept]
    exact found
  · intro found
    refine ⟨(k, d.eventsAt k), (coh.mem_quads head).mpr ?_, by rw [found]; rfl⟩
    cases some_ : d.eventsAt k with
    | nil => simp [some_] at found
    | cons ev events => rfl

omit [InlineCodec] in
/-- Every key has at most one effective event. -/
theorem nodup_collectEffective {d : Delta} (coh : d.Coherent) (epoch : Nat) :
    ((d.collectEffective epoch).map Prod.fst).Nodup := by
  obtain ⟨e, rest, indexes⟩ := List.exists_cons_of_ne_nil coh.nonempty
  have distinct : (quads e).Pairwise fun a b => a.1 ≠ b.1 := by
    rw [quads, List.pairwise_map]
    refine e.2.sorted.imp ?_
    intro a b lt same
    have keys := congrArg (permute e.1) same
    rw [permute_unpermute, permute_unpermute] at keys
    exact absurd keys (ne_of_lt lt)
  rw [collectEffective_eq indexes, List.Nodup, List.pairwise_map]
  refine distinct.filterMap _ ?_
  intro a b ne a' ha b' hb
  obtain ⟨-, -, rfl⟩ := Option.map_eq_some_iff.mp ha
  obtain ⟨-, -, rfl⟩ := Option.map_eq_some_iff.mp hb
  exact ne

omit [InlineCodec] in
theorem length_collectEffective_le {d : Delta} (coh : d.Coherent) (counted : d.Counted)
    (epoch : Nat) : (d.collectEffective epoch).length ≤ d.events := by
  obtain ⟨e, rest, indexes⟩ := List.exists_cons_of_ne_nil coh.nonempty
  have head : e ∈ d.indexes := by
    rw [indexes]
    exact List.mem_cons_self
  rw [(counted.of_index coh head).1, collectEffective_eq indexes]
  refine (List.length_filterMap_le _ _).trans ?_
  rw [quads, List.length_map]
  have some_ : ∀ c ∈ e.2.entries, 1 ≤ c.2.length := by
    intro c mem
    have get := OrderedMap.mem_entries_iff.mp (show (c.1, c.2) ∈ e.2.entries from mem)
    refine List.length_pos_iff.mpr fun none_ => coh.noEmpty e head c.1 ?_
    rw [get, none_]
  generalize e.2.entries = entries at some_
  induction entries with
  | nil => simp
  | cons c entries ih =>
      have here := some_ c List.mem_cons_self
      have later := ih fun c mem => some_ c (List.mem_cons_of_mem _ mem)
      rw [List.map_cons, List.sum_cons, List.length_cons]
      omega

omit [InlineCodec] in
theorem Extends.counted {d d' : Delta} (h : d.Extends d') (counted : d.Counted) : d'.Counted where
  events := by
    rw [h.events, h.indexes]
    exact counted.events
  tombstones := by
    rw [h.tombstones, h.indexes]
    exact counted.tombstones

/-! ## Entries of distinct keys -/

omit [InlineCodec] in
theorem lastKind_eq_some_iff {entries : List (QuadKey × DeltaKind)}
    (once : (entries.map Prod.fst).Nodup) {k : QuadKey} {kind : DeltaKind} :
    lastKind entries k = some kind ↔ (k, kind) ∈ entries := by
  simp only [lastKind, Option.map_eq_some_iff]
  constructor
  · rintro ⟨⟨k', kind'⟩, found, rfl⟩
    have mem := List.mem_reverse.mp (List.mem_of_find?_eq_some found)
    have key : k' = k := by simpa using List.find?_some found
    exact key ▸ mem
  · intro mem
    have some_ : (entries.reverse.find? fun e => decide (e.1 = k)).isSome := by
      rw [List.find?_isSome]
      exact ⟨_, List.mem_reverse.mpr mem, by simp⟩
    obtain ⟨e, found⟩ := Option.isSome_iff_exists.mp some_
    have mem' := List.mem_reverse.mp (List.mem_of_find?_eq_some found)
    have key : e.1 = k := by simpa using List.find?_some found
    refine ⟨e, found, ?_⟩
    rw [List.inj_on_of_nodup_map once mem' mem key]

omit [InlineCodec] in
theorem length_eventsOf_le {entries : List (QuadKey × DeltaKind)}
    (once : (entries.map Prod.fst).Nodup) (epoch : Nat) (k : QuadKey) :
    (eventsOf entries epoch k).length ≤ 1 := by
  rw [eventsOf, List.length_map, ← List.length_map (f := Prod.fst)]
  have same := once.sublist ((List.filter_sublist (p := fun e => decide (e.1 = k))).map Prod.fst)
  have keys : ∀ k' ∈ ((entries.filter fun e => decide (e.1 = k)).map Prod.fst), k' = k := by
    intro k' mem
    obtain ⟨e, inside, rfl⟩ := List.mem_map.mp mem
    simpa using (List.mem_filter.mp inside).2
  rw [List.eq_replicate_of_mem keys] at same ⊢
  rw [List.length_replicate]
  exact List.nodup_replicate.mp same

end Delta

/-! ## Columns -/

/-- The base lacks the terms of the overlay. -/
theorem Delta.Fits.resolveColumn {d : Delta} {base : Segment} (fits : d.Fits base) {t : Bytes}
    {pos : TermPos} {v : Col} (resolved : d.resolve t pos = some v) :
    base.resolveColumn t pos = none := by
  have inside : t ∈ (d.space pos).terms := by
    by_contra outside
    rw [Snapshot.resolve_eq_none_iff.mpr outside] at resolved
    cases resolved
  simp only [Segment.resolveColumn, fits.fresh pos t inside]

namespace Snapshot

section Overlay

variable {snap : Snapshot} (wf : snap.base.dict.WF) (fits : snap.delta.Fits snap.base)
include wf fits

/-- The overlay test tells where a value comes from. -/
theorem overlay_of_resolveCol {t : Bytes} {pos : TermPos} {v : Col}
    (resolved : snap.resolveCol t pos = some v) :
    snap.base.overlay v pos = false ∧ snap.base.resolveColumn t pos = some v ∨
      snap.base.overlay v pos = true ∧ snap.base.resolveColumn t pos = none ∧
        snap.delta.resolve t pos = some v := by
  cases found : snap.base.resolveColumn t pos with
  | some w =>
      obtain rfl : w = v := by simpa [resolveCol, found] using resolved
      refine Or.inl ⟨?_, rfl⟩
      simp only [Segment.resolveColumn] at found
      cases own : snap.base.dict.resolveBytes t pos with
      | none => simp [own] at found
      | some u =>
          rw [own] at found
          have valid := (wf.decodeBytes_of_resolve own).1
          cases pos with
          | subject =>
              obtain rfl : u = w := by simpa using found
              simpa [Segment.overlay] using Col.lt_dict_iff.mpr valid
          | predicate =>
              obtain rfl : u = w := by simpa using found
              simpa [Segment.overlay] using Col.lt_dict_iff.mpr valid
          | object =>
              obtain rfl : u = w := by simpa using found
              simp only [Segment.overlay, decide_eq_false_iff_not, not_and, not_le]
              intro tag
              rcases valid with hv | ⟨tag7, -⟩ | ⟨b, hb⟩
              · exact Col.lt_dict_iff.mpr hv
              · omega
              · have := InlineCodec.tag_tryInline hb
                omega
          | graph =>
              obtain rfl : (⟨u.tag, u.payload + 1⟩ : Col) = w := by simpa using found
              simp only [Segment.overlay, decide_eq_false_iff_not, not_le]
              exact Col.lt_dict_iff.mpr ⟨valid.1, Nat.add_lt_add_right valid.2 1⟩
  | none =>
      rw [resolveCol, found] at resolved
      obtain ⟨tag, le, -⟩ := (overlay_resolve_iff fits).mp resolved
      refine Or.inr ⟨?_, rfl, resolved⟩
      cases pos <;> simp only [Segment.overlay, decide_eq_true_eq, Segment.overlayBase] at le ⊢
      · exact Col.dict_le_iff.mpr (Or.inr le)
      · exact Col.dict_le_iff.mpr (Or.inr le)
      · exact ⟨tag, Col.dict_le_iff.mpr (Or.inr le)⟩
      · exact Col.dict_le_iff.mpr (Or.inr le)

end Overlay

/-- Quads stored as one quad have one key. -/
theorem resolveKey_of_named {snap : Snapshot} (wf : snap.WF) (accepted : snap.base.dict.Accepted)
    {q r : QuadTerms} {k : QuadKey} (same : q.named snap.base.dict = r.named snap.base.dict)
    (h : snap.resolveKey q = some k) : snap.resolveKey r = some k := by
  rw [resolveKey_eq_some_iff wf.dict wf.fits accepted] at h ⊢
  rwa [← same]

/-- A quad of base columns has one key over every delta. -/
theorem resolveKey_base {a b : Snapshot} (wf : a.base.dict.WF) (fits : a.delta.Fits a.base)
    (base : b.base = a.base) {q : QuadTerms} {k : QuadKey} (low : a.base.overlaid k = false)
    (h : a.resolveKey q = some k) : b.resolveKey q = some k := by
  have col {t : Bytes} {pos : TermPos} {v : Col} (low : a.base.overlay v pos = false)
      (resolved : a.resolveCol t pos = some v) : b.resolveCol t pos = some v := by
    rcases overlay_of_resolveCol wf fits resolved with ⟨-, found⟩ | ⟨high, -⟩
    · simp only [resolveCol, base, found]
    · rw [low] at high
      cases high
  simp only [Segment.overlaid, Bool.or_eq_false_iff] at low
  obtain ⟨⟨⟨lowS, lowP⟩, lowO⟩, lowG⟩ := low
  simp only [resolveKey, Option.bind_eq_bind, Option.bind_eq_some_iff] at h ⊢
  obtain ⟨s, hs, p, hp, o, ho, graph⟩ := h
  cases hg : q.g with
  | none =>
      simp only [hg, Option.bind_some, Option.some.injEq] at graph ⊢
      subst graph
      exact ⟨s, col lowS hs, p, col lowP hp, o, col lowO ho, rfl⟩
  | some t =>
      simp only [hg, Option.bind_eq_some_iff, Option.some.injEq] at graph ⊢
      obtain ⟨g, resolved, rfl⟩ := graph
      exact ⟨s, col lowS hs, p, col lowP hp, o, col lowO ho, g, col lowG resolved, rfl⟩

end Snapshot

namespace EphemeralFold

/-- The snapshot of the fresh delta while the fold runs. -/
def snapshot (tip : Snapshot) (st : EphemeralFold) : Snapshot := { tip with delta := st.fresh }

/-- The fresh overlay holds the terms of the values in the memo, under one id each. -/
structure Space (tip : Snapshot) (st : EphemeralFold) : Prop where
  ext : (tip.base.freshSnapshot tip.generation).delta.Extends st.fresh
  fits : st.fresh.Fits tip.base
  unified : (st.snapshot tip).Unified
  memo : ∀ pos v w, st.memo pos v = some w ↔
    ∃ t, tip.resolveCol t pos = some v ∧ st.fresh.resolve t pos = some w

/-- More of the tip folded. -/
structure Grows (tip : Snapshot) (st st' : EphemeralFold) : Prop where
  ext : (st.snapshot tip).Extends (st'.snapshot tip)
  entries : st'.entries = st.entries

omit [InlineCodec] in
theorem Grows.refl (tip : Snapshot) (st : EphemeralFold) : Grows tip st st :=
  ⟨Snapshot.Extends.refl _, rfl⟩

omit [InlineCodec] in
theorem Grows.trans {tip : Snapshot} {a b c : EphemeralFold} (h : Grows tip a b)
    (h' : Grows tip b c) : Grows tip a c := ⟨h.ext.trans h'.ext, h'.entries.trans h.entries⟩

section Fold

variable {tip : Snapshot} (sound : tip.Sound)
include sound

/-- Carrying one column over. -/
theorem column_spec {st : EphemeralFold} (space : Space tip st) {t : Bytes} {pos : TermPos} {v : Col}
    (resolved : tip.resolveCol t pos = some v) :
    ∃ st' w, st.column tip v pos = some (st', w) ∧ Space tip st' ∧ Grows tip st st' ∧
      (st'.snapshot tip).resolveCol t pos = some w := by
  have wf := sound.wf.dict
  have fits := sound.wf.fits
  rcases Snapshot.overlay_of_resolveCol wf fits resolved with ⟨low, found⟩ | ⟨high, missing, entry⟩
  · refine ⟨st, v, by simp [column, low], space, Grows.refl tip st, ?_⟩
    simp only [Snapshot.resolveCol, snapshot, found]
  · -- an overlay value stands for one term only
    have only {t' : Bytes} (resolved' : tip.resolveCol t' pos = some v) : t' = t := by
      rcases Snapshot.overlay_of_resolveCol wf fits resolved' with ⟨low, -⟩ | ⟨-, -, entry'⟩
      · rw [high] at low
        cases low
      · have get := ((Snapshot.overlay_resolve_iff fits).mp entry).2.2
        have get' := ((Snapshot.overlay_resolve_iff fits).mp entry').2.2
        rw [get] at get'
        exact (Option.some.inj get').symm
    cases known : st.memo pos v with
    | some w =>
        obtain ⟨t', resolved', fresh⟩ := (space.memo pos v w).mp known
        obtain rfl := only resolved'
        refine ⟨st, w, by simp [column, high, known], space, Grows.refl tip st, ?_⟩
        simp only [Snapshot.resolveCol, snapshot, missing, fresh]
    | none =>
        -- the term is not in the fresh overlay yet
        have new : (st.snapshot tip).resolveCol t pos = none := by
          simp only [Snapshot.resolveCol, snapshot, missing]
          cases fresh : st.fresh.resolve t pos with
          | none => rfl
          | some w =>
              rw [(space.memo pos v w).mpr ⟨t, resolved, fresh⟩] at known
              cases known
        obtain ⟨tag, le, get⟩ := (Snapshot.overlay_resolve_iff fits).mp entry
        have decoded : tip.delta.decode v pos = some t :=
          (Snapshot.overlay_decode fits tag le).trans get
        have spec := @Snapshot.internCol_spec _ (st.snapshot tip) space.fits t pos
        have unified := space.unified.internCol wf space.fits t pos
        have old {t' : Bytes} {p : TermPos} {u : Col} :=
          @Snapshot.resolveCol_internCol _ (st.snapshot tip) wf space.fits t t' pos p u new
        have shape : (st.snapshot tip).internCol t pos =
            ({ tip with delta := (internOverlay tip.base st.fresh t pos).1 },
              (internOverlay tip.base st.fresh t pos).2) := by
          simp only [Snapshot.internCol, new]
          rfl
        rw [shape] at spec unified old
        have value : st.column tip v pos = some (⟨(internOverlay tip.base st.fresh t pos).1,
            st.memo.insert pos v (internOverlay tip.base st.fresh t pos).2, st.entries⟩,
              (internOverlay tip.base st.fresh t pos).2) := by
          simp only [column, high, if_true, known, decoded, Option.map_some]
        generalize (internOverlay tip.base st.fresh t pos).1 = fresh at spec unified old value
        generalize (internOverlay tip.base st.fresh t pos).2 = w at spec old value
        obtain ⟨ext, fits', interned⟩ := spec
        refine ⟨_, w, value, ⟨space.ext.trans ext.delta, fits', unified, ?_⟩, ⟨ext, rfl⟩, interned⟩
        have entered : fresh.resolve t pos = some w := by
          simpa only [Snapshot.resolveCol, missing] using interned
        intro p v' w'
        simp only [Memo.insert]
        by_cases here : p = pos ∧ v' = v
        · obtain ⟨rfl, rfl⟩ := here
          rw [if_pos ⟨rfl, rfl⟩]
          constructor
          · intro same
            exact ⟨t, resolved, entered.trans same⟩
          · rintro ⟨t', resolved', fresh'⟩
            obtain rfl := only resolved'
            exact entered.symm.trans fresh'
        · rw [if_neg here, space.memo]
          constructor
          · rintro ⟨t', resolved', fresh'⟩
            exact ⟨t', resolved', ext.delta.resolve fresh'⟩
          · rintro ⟨t', resolved', fresh'⟩
            refine ⟨t', resolved', ?_⟩
            have absent := fits'.resolveColumn fresh'
            have found : Snapshot.resolveCol { tip with delta := fresh } t' p = some w' := by
              simpa only [Snapshot.resolveCol, absent] using fresh'
            rcases old found with before | ⟨rfl, rfl⟩
            · simpa only [Snapshot.resolveCol, snapshot, absent] using before
            · rw [resolved] at resolved'
              exact absurd ⟨rfl, (Option.some.inj resolved').symm⟩ here

/-- A key of the tip and the fresh key of the same quad. -/
def Carried (tip : Snapshot) (st : EphemeralFold) (k k' : QuadKey) : Prop :=
  ∃ q, tip.resolveKey q = some k ∧ (st.snapshot tip).resolveKey q = some k'

omit sound in
theorem Carried.grows {st st' : EphemeralFold} {k k' : QuadKey} (h : Carried tip st k k')
    (grows : Grows tip st st') : Carried tip st' k k' := by
  obtain ⟨q, old, fresh⟩ := h
  exact ⟨q, old, grows.ext.resolveKey fresh⟩

/-- Carrying a key over. -/
theorem key_spec {st : EphemeralFold} (space : Space tip st) {k : QuadKey}
    (valid : tip.ValidKey k) : ∃ st' k', st.key tip k = some (st', k') ∧ Space tip st' ∧
      Grows tip st st' ∧ Carried tip st' k k' := by
  obtain ⟨q, -, resolved⟩ :=
    Snapshot.resolveKey_of_validKey sound.wf.dict sound.wf.fits sound.accepted valid
  have whole := resolved
  simp only [Snapshot.resolveKey, Option.bind_eq_bind, Option.bind_eq_some_iff] at resolved
  obtain ⟨s, hs, p, hp, o, ho, graph⟩ := resolved
  obtain ⟨st1, s', c1, space1, g1, r1⟩ := column_spec sound space hs
  obtain ⟨st2, p', c2, space2, g2, r2⟩ := column_spec sound space1 hp
  obtain ⟨st3, o', c3, space3, g3, r3⟩ := column_spec sound space2 ho
  have last : ∃ st4 g', st3.column tip k.g .graph = some (st4, g') ∧ Space tip st4 ∧
      Grows tip st3 st4 ∧ (st4.snapshot tip).resolveKey q = some ⟨s', p', o', g'⟩ := by
    cases hg : q.g with
    | none =>
        simp only [hg, Option.bind_some, Option.some.injEq] at graph
        subst graph
        have low : tip.base.overlay (Col.dict 0) .graph = false := by
          simp [Segment.overlay]
        refine ⟨st3, Col.dict 0, by simp [column, low], space3, Grows.refl tip st3, ?_⟩
        simp only [Snapshot.resolveKey, hg, (g2.trans g3).ext.resolveCol r1, g3.ext.resolveCol r2, r3,
          Option.bind_eq_bind, Option.bind_some]
    | some t =>
        simp only [hg, Option.bind_eq_some_iff, Option.some.injEq] at graph
        obtain ⟨g, resolvedG, rfl⟩ := graph
        obtain ⟨st4, g', c4, space4, g4, r4⟩ := column_spec sound space3 resolvedG
        refine ⟨st4, g', c4, space4, g4, ?_⟩
        simp only [Snapshot.resolveKey, hg, (g2.trans (g3.trans g4)).ext.resolveCol r1,
          (g3.trans g4).ext.resolveCol r2, g4.ext.resolveCol r3, r4, Option.bind_eq_bind,
          Option.bind_some]
  obtain ⟨st4, g', c4, space4, g4, r4⟩ := last
  have columns : k.s = s ∧ k.p = p ∧ k.o = o := by
    cases hg : q.g with
    | none =>
        simp only [hg, Option.bind_some, Option.some.injEq] at graph
        subst graph
        exact ⟨rfl, rfl, rfl⟩
    | some t =>
        simp only [hg, Option.bind_eq_some_iff, Option.some.injEq] at graph
        obtain ⟨g, -, rfl⟩ := graph
        exact ⟨rfl, rfl, rfl⟩
  refine ⟨st4, ⟨s', p', o', g'⟩, ?_, space4, g1.trans (g2.trans (g3.trans g4)), q, whole, r4⟩
  simp only [key, columns, c1, c2, c3, c4, Option.bind_eq_bind, Option.bind_some, Option.pure_def]

/-- A key without overlay columns stands for the same quad over the fresh delta. -/
theorem carried_base {st : EphemeralFold} {k : QuadKey} (valid : tip.ValidKey k)
    (low : tip.base.overlaid k = false) : Carried tip st k k := by
  obtain ⟨q, -, resolved⟩ :=
    Snapshot.resolveKey_of_validKey sound.wf.dict sound.wf.fits sound.accepted valid
  exact ⟨q, resolved, Snapshot.resolveKey_base (b := st.snapshot tip) sound.wf.dict
    sound.wf.fits rfl low resolved⟩

/-- What the fold has done: the kept events are those of the tip that say something about
the base, on the fresh keys. -/
structure Inv (tip : Snapshot) (done : List (QuadKey × DeltaKind)) (st : EphemeralFold) : Prop where
  space : Space tip st
  entries : List.Forall₂ (fun e e' => Carried tip st e.1 e'.1 ∧ e'.2 = e.2)
    (done.filter fun e => !Delta.restatesBase e.2 (tip.base.containsQuad e.1)) st.entries

omit [InlineCodec] sound in
/-- A base quad has no overlay column. -/
theorem overlaid_of_containsQuad {base : Segment} {k : QuadKey} (h : base.containsQuad k = true) :
    base.overlaid k = false := by
  simp only [Segment.containsQuad] at h
  split at h
  · cases h
  · rename_i spg
    split at h
    · cases h
    · rename_i o
      push Not at spg o
      simp only [Segment.overlaid, Segment.overlay, Bool.or_eq_false_iff, decide_eq_false_iff_not,
        not_le, not_and]
      refine ⟨⟨⟨spg.1, spg.2.1⟩, o⟩, ?_⟩
      have le := spg.2.2
      rw [← not_lt, Col.lt_iff] at le
      rw [Col.lt_dict_iff]
      simp only [Col.dict_tag, Col.dict_payload] at le
      omega

/-- Folding one event. -/
theorem step_spec {done : List (QuadKey × DeltaKind)} {st : EphemeralFold} (inv : Inv tip done st)
    {e : QuadKey × DeltaKind} (valid : tip.ValidKey e.1) :
    ∃ st', st.step tip e = some st' ∧ Inv tip (done ++ [e]) st' := by
  obtain ⟨k, kind⟩ := e
  -- dropping an event that restates the base, and keeping any other
  have drop (restates : Delta.restatesBase kind (tip.base.containsQuad k) = true) :
      Inv tip (done ++ [(k, kind)]) st := by
    refine ⟨inv.space, ?_⟩
    simpa [List.filter_append, restates] using inv.entries
  have keep {st' : EphemeralFold} {k' : QuadKey} (space : Space tip st') (grows : Grows tip st st')
      (carried : Carried tip st' k k')
      (telling : Delta.restatesBase kind (tip.base.containsQuad k) = false) :
      Inv tip (done ++ [(k, kind)]) (st'.push (k', kind)) := by
    refine ⟨⟨space.ext, space.fits, space.unified, space.memo⟩, ?_⟩
    have before : List.Forall₂ (fun e e' => Carried tip st' e.1 e'.1 ∧ e'.2 = e.2)
        (done.filter fun e => !Delta.restatesBase e.2 (tip.base.containsQuad e.1)) st'.entries := by
      rw [grows.entries]
      exact inv.entries.imp fun _ _ h => ⟨h.1.grows grows, h.2⟩
    rw [List.filter_append]
    refine List.rel_append before ?_
    simp only [List.filter_cons, telling, Bool.not_false, if_true, List.filter_nil]
    exact .cons ⟨carried, rfl⟩ .nil
  cases inside : tip.base.containsQuad k with
  | true =>
      have low := overlaid_of_containsQuad inside
      cases kind with
      | tombstone =>
          refine ⟨st.push (k, .tombstone), by simp [step, low, inside], ?_⟩
          exact keep inv.space (Grows.refl tip st) (carried_base sound valid low)
            (by simp [Delta.restatesBase, inside])
      | add =>
          exact ⟨st, by simp [step, low, inside], drop (by simp [Delta.restatesBase, inside])⟩
  | false =>
      cases kind with
      | tombstone => exact ⟨st, by simp [step, inside], drop (by simp [Delta.restatesBase, inside])⟩
      | add =>
          have telling : Delta.restatesBase .add (tip.base.containsQuad k) = false := by
            simp [Delta.restatesBase, inside]
          cases high : tip.base.overlaid k with
          | true =>
              obtain ⟨st', k', run, space, grows, carried⟩ := key_spec sound inv.space valid
              exact ⟨st'.push (k', .add), by simp [step, high, run], keep space grows carried telling⟩
          | false =>
              refine ⟨st.push (k, .add), by simp [step, high, inside], ?_⟩
              exact keep inv.space (Grows.refl tip st) (carried_base sound valid high) telling

theorem foldlM_spec {done : List (QuadKey × DeltaKind)} {st : EphemeralFold}
    (inv : Inv tip done st) (l : List (QuadKey × DeltaKind)) (valid : ∀ e ∈ l, tip.ValidKey e.1) :
    ∃ st', l.foldlM (step tip) st = some st' ∧ Inv tip (done ++ l) st' := by
  induction l generalizing done st with
  | nil => exact ⟨st, rfl, by simpa using inv⟩
  | cons e l ih =>
      obtain ⟨mid, run, inv'⟩ := step_spec sound inv (valid e List.mem_cons_self)
      obtain ⟨st', rest, last⟩ := ih inv' fun e he => valid e (List.mem_cons_of_mem _ he)
      refine ⟨st', ?_, by simpa using last⟩
      rw [List.foldlM_cons, run]
      exact rest

/-! ## The events kept -/

section Kept

variable {done : List (QuadKey × DeltaKind)} {st : EphemeralFold} (inv : Inv tip done st)
include inv

/-- The fresh delta holds no events yet. -/
theorem Inv.sound_snapshot : (st.snapshot tip).Sound := by
  obtain ⟨quads, holds⟩ := sound.wf.holds
  have fresh := Snapshot.fresh_sound holds sound.accepted tip.generation
  have at_ : ((tip.base.freshSnapshot tip.generation).atEpoch tip.epoch).Sound :=
    ⟨⟨fresh.wf.atEpoch tip.epoch, by simp [Snapshot.atEpoch, Snapshot.eventsAt_fresh]⟩,
      sound.accepted⟩
  have ext : ((tip.base.freshSnapshot tip.generation).atEpoch tip.epoch).Extends (st.snapshot tip) :=
    ⟨rfl, rfl, rfl, inv.space.ext⟩
  exact at_.extends ext (at_.wf.extends ext inv.space.fits)

omit sound in
theorem Inv.eventsAt (k : QuadKey) : st.fresh.eventsAt k = [] := by
  rw [inv.space.ext.eventsAt, Snapshot.eventsAt_fresh]

/-- Carrying over is one to one. -/
theorem Inv.biUnique : Relator.BiUnique (Carried tip st) := by
  have fresh := inv.sound_snapshot sound
  constructor
  · rintro a b c ⟨q, old, here⟩ ⟨r, old', here'⟩
    have same := Snapshot.resolveKey_inj fresh.wf fresh.accepted here here'
    exact Option.some.inj
      ((Snapshot.resolveKey_of_named sound.wf sound.accepted same old).symm.trans old')
  · rintro a b c ⟨q, old, here⟩ ⟨r, old', here'⟩
    have same := Snapshot.resolveKey_inj sound.wf sound.accepted old old'
    exact Option.some.inj
      ((Snapshot.resolveKey_of_named fresh.wf fresh.accepted same here).symm.trans here')

theorem Inv.nodup (once : (done.map Prod.fst).Nodup) : (st.entries.map Prod.fst).Nodup := by
  have kept := once.sublist ((List.filter_sublist
    (p := fun e => !Delta.restatesBase e.2 (tip.base.containsQuad e.1))).map Prod.fst)
  have keys : List.Forall₂ (Carried tip st) ((done.filter fun e =>
      !Delta.restatesBase e.2 (tip.base.containsQuad e.1)).map Prod.fst)
        (st.entries.map Prod.fst) := by
    rw [List.forall₂_map_left_iff, List.forall₂_map_right_iff]
    exact inv.entries.imp fun _ _ h => h.1
  exact (List.rel_nodup (inv.biUnique sound) keys).mp kept

/-- An event is kept on the fresh key exactly when it says something about the base. -/
theorem Inv.mem_entries {k k' : QuadKey} (carried : Carried tip st k k') {kind : DeltaKind} :
    (k', kind) ∈ st.entries ↔
      (k, kind) ∈ done ∧ Delta.restatesBase kind (tip.base.containsQuad k) = false := by
  have unique : Relator.BiUnique fun e e' : QuadKey × DeltaKind =>
      Carried tip st e.1 e'.1 ∧ e'.2 = e.2 := by
    obtain ⟨left, right⟩ := inv.biUnique sound
    exact ⟨fun a b c ha hb => Prod.ext (left ha.1 hb.1) (ha.2.symm.trans hb.2),
      fun a b c hb hc => Prod.ext (right hb.1 hc.1) (hb.2.trans hc.2.symm)⟩
  have same := List.rel_mem unique (show Carried tip st (k, kind).1 (k', kind).1 ∧
    (k', kind).2 = (k, kind).2 from ⟨carried, rfl⟩) inv.entries
  refine same.symm.trans ?_
  simp

omit sound in
/-- Every kept event is on a fresh key. -/
theorem Inv.carried_entries {k' : QuadKey} {kind : DeltaKind} (h : (k', kind) ∈ st.entries) :
    ∃ k, Carried tip st k k' := by
  obtain ⟨e, -, carried, -⟩ := exists_related inv.entries.flip h
  exact ⟨e.1, carried⟩

omit sound in
/-- The key of an event that is kept has a fresh key. -/
theorem Inv.exists_carried {k : QuadKey} {kind : DeltaKind} (mem : (k, kind) ∈ done)
    (telling : Delta.restatesBase kind (tip.base.containsQuad k) = false) :
    ∃ k', Carried tip st k k' := by
  obtain ⟨e, -, carried, -⟩ := exists_related inv.entries
    (List.mem_filter.mpr ⟨mem, by simp [telling]⟩)
  exact ⟨e.1, carried⟩

/-- A quad and its fresh key are in the base together. -/
theorem Inv.containsQuad {k k' : QuadKey} (carried : Carried tip st k k') :
    tip.base.containsQuad k' = tip.base.containsQuad k := by
  obtain ⟨q, old, here⟩ := carried
  have fresh := (inv.sound_snapshot sound).wf
  rw [Bool.eq_iff_iff]
  constructor
  · intro inside
    have back := Snapshot.resolveKey_base (b := tip) fresh.dict fresh.fits rfl
      (overlaid_of_containsQuad inside) here
    rw [old] at back
    rwa [Option.some.inj back]
  · intro inside
    have forth := Snapshot.resolveKey_base (b := st.snapshot tip) sound.wf.dict sound.wf.fits
      rfl (overlaid_of_containsQuad inside) old
    rw [here] at forth
    rwa [Option.some.inj forth]

end Kept

/-! ## The compacted snapshot -/

/-- The compacted snapshot is the fold's, with the kept events recorded at its epoch. -/
structure Folded (tip snap : Snapshot) (st : EphemeralFold) : Prop where
  inv : Inv tip (tip.delta.collectEffective tip.epoch) st
  eq : snap = (st.snapshot tip).record ⟨st.entries, tip.epoch, []⟩

end Fold

theorem space_start {tip : Snapshot} (sound : tip.Sound) :
    Space tip ⟨(tip.base.freshSnapshot tip.generation).delta, Memo.empty, []⟩ where
  ext := Delta.Extends.refl _
  fits := by
    obtain ⟨quads, holds⟩ := sound.wf.holds
    exact (Snapshot.fresh_sound holds sound.accepted tip.generation).wf.fits
  unified := (Snapshot.unified_fresh sound.wf.dict sound.accepted tip.generation).of_spaces rfl fun _ => rfl
  memo := by
    intro pos v w
    have none_ (t : Bytes) :
        (tip.base.freshSnapshot tip.generation).delta.resolve t pos = none := by
      cases pos <;> rfl
    simp [Memo.empty, none_]

/-- The fold of a tip succeeds. -/
theorem exists_folded {tip : Snapshot} (sound : tip.Sound) :
    ∃ snap st, tip.foldEphemeralDelta = some snap ∧ Folded tip snap st := by
  have valid : ∀ e ∈ tip.delta.collectEffective tip.epoch, tip.ValidKey e.1 := by
    rintro ⟨k, kind⟩ mem
    refine sound.wf.keysValid k fun none_ => ?_
    rw [Delta.mem_collectEffective sound.wf.coherent, none_] at mem
    cases mem
  obtain ⟨st, run, inv⟩ := @foldlM_spec _ _ sound [] _ ⟨space_start sound, .nil⟩ _ valid
  refine ⟨_, st, ?_, inv, rfl⟩
  have nothing (d : Delta) : d.record [] tip.epoch = d := by simp [Delta.record]
  simp only [Snapshot.foldEphemeralDelta]
  change ((tip.delta.collectEffective tip.epoch).foldlM (step tip)
    ⟨(tip.base.freshSnapshot tip.generation).delta, Memo.empty, []⟩ >>= _) = _
  rw [run]
  by_cases none_ : st.entries = []
  · simp [none_, nothing, Snapshot.record, snapshot]
  · simp [none_, Snapshot.record, snapshot]

section Result

variable {tip snap : Snapshot} {st : EphemeralFold} (sound : tip.Sound)
  (folded : Folded tip snap st)
include sound folded

theorem Folded.valid : ∀ e ∈ st.entries, (st.snapshot tip).ValidKey e.1 := by
  rintro ⟨k', kind⟩ mem
  have fresh := folded.inv.sound_snapshot sound
  obtain ⟨k, q, -, here⟩ := folded.inv.carried_entries mem
  exact ((Snapshot.resolveKey_eq_some_iff fresh.wf.dict fresh.wf.fits fresh.accepted).mp here).1

theorem Folded.sound_snap : snap.Sound := by
  rw [folded.eq]
  exact (folded.inv.sound_snapshot sound).record (le_refl _) (folded.valid sound)

theorem Folded.events (k : QuadKey) :
    snap.delta.eventsAt k = Delta.eventsOf st.entries tip.epoch k := by
  have coherent := (folded.inv.sound_snapshot sound).wf.coherent
  have fresh := Delta.eventsAt_record coherent st.entries tip.epoch k
  rw [folded.eq]
  refine fresh.trans ?_
  rw [show (st.snapshot tip).delta.eventsAt k = [] from folded.inv.eventsAt k, List.nil_append]

theorem Folded.once : (st.entries.map Prod.fst).Nodup :=
  folded.inv.nodup sound (Delta.nodup_collectEffective sound.wf.coherent tip.epoch)

/-- The last kind of a fresh key is the effective one of the tip, unless it restates the
base. -/
theorem Folded.lastKind {k k' : QuadKey} (carried : Carried tip st k k') {kind : DeltaKind} :
    Delta.lastKind st.entries k' = some kind ↔
      Delta.effective (tip.delta.eventsAt k) tip.epoch = some kind ∧
        Delta.restatesBase kind (tip.base.containsQuad k) = false := by
  rw [← Delta.mem_collectEffective sound.wf.coherent,
    ← folded.inv.mem_entries sound carried]
  exact Delta.lastKind_eq_some_iff (folded.once sound)

theorem Folded.containsKey_eq (k' : QuadKey) : snap.containsKey k' =
    (st.snapshot tip).presentKey (Carry.none.after st.entries) k' := by
  rw [folded.eq]
  exact Snapshot.containsKey_record (folded.inv.sound_snapshot sound).toSettled (le_refl _) k'

/-- A quad's key is visible at the tip exactly when its fresh key is. -/
theorem Folded.containsKey {k k' : QuadKey} (carried : Carried tip st k k') :
    snap.containsKey k' = tip.containsKey k := by
  have base := folded.inv.containsQuad sound carried
  have last {kind : DeltaKind} := @Folded.lastKind _ tip snap st sound folded k k' carried kind
  have unseen : (st.snapshot tip).containsKey k' = tip.base.containsQuad k := by
    simp only [Snapshot.containsKey, Delta.probe_eq, snapshot, folded.inv.eventsAt,
      Delta.effective_nil, base]
  rw [folded.containsKey_eq sound]
  simp only [Snapshot.presentKey, Carry.after, Carry.none, Option.or_none, unseen]
  simp only [Snapshot.containsKey, Delta.probe_eq]
  cases there : Delta.effective (tip.delta.eventsAt k) tip.epoch with
  | none =>
      cases kept : Delta.lastKind st.entries k' with
      | none => rfl
      | some kind =>
          rw [last, there] at kept
          cases kept.1
  | some kind =>
      cases restates : Delta.restatesBase kind (tip.base.containsQuad k) with
      | false =>
          rw [last.mpr ⟨there, restates⟩]
          cases kind <;> rfl
      | true =>
          cases kept : Delta.lastKind st.entries k' with
          | none => cases kind <;> simpa [Delta.restatesBase] using restates
          | some kind' =>
              rw [last, there] at kept
              cases kept.1
              rw [restates] at kept
              cases kept.2

omit sound in
theorem Folded.resolveKey (q : QuadTerms) :
    snap.resolveKey q = (st.snapshot tip).resolveKey q := by
  rw [folded.eq]
  exact Snapshot.resolveKey_record _ _ q

omit sound in
theorem Folded.base : snap.base = tip.base := by
  rw [folded.eq]
  rfl

/-- The compacted snapshot shows a quad, as it is stored, when the tip does. -/
theorem Folded.contains_named (q : QuadTerms) :
    snap.Contains (q.named tip.base.dict) ↔ tip.Contains (q.named tip.base.dict) := by
  have fresh := folded.inv.sound_snapshot sound
  have sound' := folded.sound_snap sound
  rw [sound.wf.contains_iff sound.accepted, ← folded.base,
    sound'.wf.contains_iff sound'.accepted]
  simp only [folded.resolveKey]
  constructor
  · rintro ⟨k', here, visible⟩
    have carried : ∃ k, Carried tip st k k' := by
      rw [folded.containsKey_eq sound] at visible
      cases kept : Delta.lastKind st.entries k' with
      | some kind =>
          rw [Delta.lastKind_eq_some_iff (folded.once sound)] at kept
          exact folded.inv.carried_entries kept
      | none =>
          simp only [Snapshot.presentKey, Carry.after, Carry.none, Option.or_none, kept,
            Snapshot.containsKey, Delta.probe_eq, snapshot, folded.inv.eventsAt,
            Delta.effective_nil] at visible
          exact ⟨k', q, Snapshot.resolveKey_base (b := tip) fresh.wf.dict fresh.wf.fits rfl
            (overlaid_of_containsQuad visible) here, here⟩
    obtain ⟨k, r, old', here'⟩ := carried
    have old := Snapshot.resolveKey_of_named sound.wf sound.accepted
      (Snapshot.resolveKey_inj fresh.wf fresh.accepted here' here) old'
    rw [folded.containsKey sound ⟨q, old, here⟩] at visible
    exact ⟨k, old, visible⟩
  · rintro ⟨k, old, visible⟩
    have carried : ∃ k', Carried tip st k k' := by
      cases inside : tip.base.containsQuad k with
      | true => exact ⟨k, carried_base sound (sound.wf.validKey_of_containsKey visible)
          (overlaid_of_containsQuad inside)⟩
      | false =>
          simp only [Snapshot.containsKey, Delta.probe_eq] at visible
          cases there : Delta.effective (tip.delta.eventsAt k) tip.epoch with
          | none => simp [there, inside] at visible
          | some kind =>
              cases kind with
              | tombstone => simp [there] at visible
              | add =>
                  exact folded.inv.exists_carried
                    ((Delta.mem_collectEffective sound.wf.coherent).mpr there)
                    (by simp [Delta.restatesBase, inside])
    obtain ⟨k', r, old', here'⟩ := carried
    have here := Snapshot.resolveKey_of_named fresh.wf fresh.accepted
      (Snapshot.resolveKey_inj sound.wf sound.accepted old' old) here'
    refine ⟨k', here, ?_⟩
    rw [folded.containsKey sound ⟨q, old, here⟩]
    exact visible

/-- The compacted snapshot shows the quads of the tip. -/
theorem Folded.contains (q : QuadTerms) : snap.Contains q ↔ tip.Contains q := by
  constructor
  · intro here
    have stored := (folded.sound_snap sound).named_of_mem here
    rw [folded.base] at stored
    rw [← stored] at here ⊢
    exact (folded.contains_named sound q).mp here
  · intro there
    have stored := sound.named_of_mem there
    rw [← stored] at there ⊢
    exact (folded.contains_named sound q).mpr there

/-- The fresh delta holds at most one event per key. -/
theorem Folded.single : ∀ e ∈ snap.delta.indexes, ∀ c ∈ e.2.entries, c.2.length ≤ 1 := by
  intro e mem c inside
  have coherent := (folded.sound_snap sound).wf.coherent
  have kept := (@Delta.Coherent.mem_quads _ coherent _ mem (unpermute e.1 c.1) c.2).mp
    (List.mem_map.mpr ⟨c, inside, rfl⟩)
  have same : snap.delta.eventsAt (unpermute e.1 c.1) = c.2 := by
    rw [← Delta.keepEvents_getD (snap.delta.eventsAt _), kept]
    rfl
  rw [← same, folded.events sound]
  exact Delta.length_eventsOf_le (folded.once sound) tip.epoch _

omit sound in
theorem Folded.unified : snap.Unified := by
  rw [folded.eq]
  exact folded.inv.space.unified.of_spaces rfl fun pos => Delta.space_record _ _ _ pos

/-- A term's visible values in the two positions have one id. -/
theorem Folded.oneId {k k' : QuadKey} (visible : snap.containsKey k = true)
    (visible' : snap.containsKey k' = true)
    (same : snap.decodeValue k.s .subject = snap.decodeValue k'.o .object) :
    snap.termId k.s .subject = snap.termId k'.o .object := by
  have wf := (folded.sound_snap sound).wf
  obtain ⟨t, decoded, resolved⟩ := Snapshot.resolveCol_of_validCol wf.dict wf.fits
    (folded.sound_snap sound).accepted
    (wf.validKey_of_containsKey visible).s
  obtain ⟨t', decoded', resolved'⟩ := Snapshot.resolveCol_of_validCol wf.dict wf.fits
    (folded.sound_snap sound).accepted
    (wf.validKey_of_containsKey visible').o
  rw [decoded, decoded'] at same
  cases same
  exact folded.unified t _ _ resolved resolved'

theorem Folded.counted : snap.delta.Counted := by
  have start := folded.inv.space.ext.counted (Delta.counted_new tip.base.scanOrders
    tip.base.dict.nSubjects tip.base.dict.predicates.length tip.base.dict.nObjects
    (tip.base.dict.graphs.length + 1))
  rw [folded.eq]
  exact start.record (folded.inv.sound_snapshot sound).wf.coherent.nonempty _ _

/-- A compaction leaves no more events than there were. -/
theorem Folded.events_le (counted : tip.delta.Counted) : snap.delta.events ≤ tip.delta.events := by
  have length := folded.inv.entries.length_eq
  have fresh : st.fresh.events = 0 := folded.inv.space.ext.events
  have all : snap.delta.events = st.entries.length := by
    rw [folded.eq]
    simp only [Snapshot.record, Delta.record, snapshot, fresh, Nat.zero_add]
  rw [all, ← length]
  exact (List.length_filter_le _ _).trans
    (Delta.length_collectEffective_le sound.wf.coherent counted tip.epoch)

end Result

end EphemeralFold

end Graphy
