import Graphy.Store.Snapshot
import Graphy.Store.Proofs.Segment
import Graphy.Store.Proofs.Delta

/-!
# Terms and column values of a snapshot

A delta fits a base when its overlay spaces sit directly above the base ranges
and hold only terms the base lacks.  Then resolving a term and decoding a valid
column value are inverse to each other in every position, and interning extends
the column spaces without moving a value.
-/

namespace Graphy

variable [InlineCodec]

/-- First overlay column value of a position. -/
def Segment.overlayBase (base : Segment) : TermPos → Nat
  | .subject => base.dict.nSubjects
  | .predicate => base.dict.predicates.length
  | .object => base.dict.nObjects
  | .graph => base.dict.graphs.length + 1

namespace Delta

structure Fits (d : Delta) (base : Segment) : Prop where
  space_base : ∀ pos, (d.space pos).base = base.overlayBase pos
  nodup : ∀ pos, (d.space pos).terms.Nodup
  fresh : ∀ pos, ∀ t ∈ (d.space pos).terms, base.dict.resolveBytes t pos = none
  aliases_length : ∀ pos, (d.space pos).aliases.length = (d.space pos).terms.length

omit [InlineCodec] in
/-- The delta with more terms interned and the same events. -/
structure Extends (d d' : Delta) : Prop where
  indexes : d'.indexes = d.indexes
  events : d'.events = d.events
  tombstones : d'.tombstones = d.tombstones
  space_base : ∀ pos, (d'.space pos).base = (d.space pos).base
  terms : ∀ pos, (d.space pos).terms <+: (d'.space pos).terms
  aliases : ∀ pos, (d.space pos).aliases <+: (d'.space pos).aliases

omit [InlineCodec] in
theorem Extends.refl (d : Delta) : d.Extends d :=
  ⟨rfl, rfl, rfl, fun _ => rfl, fun _ => List.prefix_refl _, fun _ => List.prefix_refl _⟩

omit [InlineCodec] in
theorem Extends.trans {a b c : Delta} (h1 : a.Extends b) (h2 : b.Extends c) : a.Extends c :=
  ⟨h2.indexes.trans h1.indexes, h2.events.trans h1.events, h2.tombstones.trans h1.tombstones,
    fun pos => (h2.space_base pos).trans (h1.space_base pos),
    fun pos => (h1.terms pos).trans (h2.terms pos),
    fun pos => (h1.aliases pos).trans (h2.aliases pos)⟩

omit [InlineCodec] in
theorem Extends.eventsAt {d d' : Delta} (h : d.Extends d') (q : QuadKey) :
    d'.eventsAt q = d.eventsAt q := by
  simp only [Delta.eventsAt, h.indexes]

omit [InlineCodec] in
theorem Extends.coherent {d d' : Delta} (h : d.Extends d') (coh : d.Coherent) : d'.Coherent where
  nonempty := by rw [h.indexes]; exact coh.nonempty
  agree := by
    intro e he q
    rw [h.eventsAt]
    exact coh.agree e (h.indexes ▸ he) q
  noEmpty := fun e he => coh.noEmpty e (h.indexes ▸ he)

omit [InlineCodec] in
@[simp] theorem space_setSpace (d : Delta) (pos pos' : TermPos) (s : OverlaySpace) :
    (d.setSpace pos s).space pos' = if pos' = pos then s else d.space pos' := by
  cases pos <;> cases pos' <;> rfl

omit [InlineCodec] in
/-- What interning a new term does to the spaces. -/
theorem space_intern {d : Delta} {t : Bytes} {pos : TermPos} (aliasId : Option TermId)
    (absent : d.resolve t pos = none) (pos' : TermPos) :
    ((d.intern t pos aliasId).1.space pos').base = (d.space pos').base ∧
      ((d.intern t pos aliasId).1.space pos').terms =
        (d.space pos').terms ++ (if pos' = pos then [t] else []) ∧
      ((d.intern t pos aliasId).1.space pos').aliases = (d.space pos').aliases ++
        (if pos' = pos then [if aliased pos then aliasId else none] else []) := by
  have space : (d.intern t pos aliasId).1.space pos' =
      (d.setSpace pos { d.space pos with
        terms := (d.space pos).terms ++ [t]
        aliases := (d.space pos).aliases ++ [if aliased pos then aliasId else none] }).space
          pos' := by
    simp only [resolve] at absent
    simp only [intern, OverlaySpace.intern, absent]
    split
    · cases pos' <;> rfl
    · rfl
  rw [space, space_setSpace]
  by_cases same : pos' = pos
  · subst same
    simp
  · simp [same]

omit [InlineCodec] in
theorem intern_indexes (d : Delta) (t : Bytes) (pos : TermPos) (aliasId : Option TermId) :
    (d.intern t pos aliasId).1.indexes = d.indexes ∧
      (d.intern t pos aliasId).1.events = d.events ∧
      (d.intern t pos aliasId).1.tombstones = d.tombstones := by
  simp only [intern]
  split
  · cases pos <;> exact ⟨rfl, rfl, rfl⟩
  · cases pos <;> exact ⟨rfl, rfl, rfl⟩

omit [InlineCodec] in
theorem intern_col {d : Delta} {t : Bytes} {pos : TermPos} {aliasId : Option TermId}
    (absent : d.resolve t pos = none) :
    (d.intern t pos aliasId).2 = Col.dict ((d.space pos).base + (d.space pos).terms.length) := by
  simp only [resolve] at absent
  simp only [intern, OverlaySpace.intern, absent]
  split <;> rfl

omit [InlineCodec] in
theorem extends_intern {d : Delta} {t : Bytes} {pos : TermPos} (aliasId : Option TermId)
    (absent : d.resolve t pos = none) : d.Extends (d.intern t pos aliasId).1 := by
  obtain ⟨h1, h2, h3⟩ := intern_indexes d t pos aliasId
  refine ⟨h1, h2, h3, fun p => (space_intern aliasId absent p).1, fun p => ?_, fun p => ?_⟩
  · rw [(space_intern aliasId absent p).2.1]
    exact List.prefix_append _ _
  · rw [(space_intern aliasId absent p).2.2]
    exact List.prefix_append _ _

end Delta

namespace Snapshot

/-- A column value that names a term of the snapshot; a graph value here is a
named graph's. -/
def ValidCol (snap : Snapshot) (v : Col) : TermPos → Prop
  | .subject => v.tag = 0 ∧ v.payload < snap.base.dict.nSubjects + snap.delta.spaceLen .subject
  | .predicate =>
      v.tag = 0 ∧ v.payload < snap.base.dict.predicates.length + snap.delta.spaceLen .predicate
  | .graph =>
      v.tag = 0 ∧ 1 ≤ v.payload ∧
        v.payload < snap.base.dict.graphs.length + 1 + snap.delta.spaceLen .graph
  | .object =>
      (v.tag = 0 ∧ v.payload < snap.base.dict.nObjects + snap.delta.spaceLen .object) ∨
        (v.tag = 7 ∧ v.payload < snap.base.dict.ttRecords.length) ∨ ∃ b, tryInline b = some v

/-- A key whose components name terms of the snapshot. -/
structure ValidKey (snap : Snapshot) (k : QuadKey) : Prop where
  s : snap.ValidCol k.s .subject
  p : snap.ValidCol k.p .predicate
  o : snap.ValidCol k.o .object
  g : k.g = Col.dict 0 ∨ snap.ValidCol k.g .graph

section Columns

variable {snap : Snapshot} (wf : snap.base.dict.WF) (fits : snap.delta.Fits snap.base)
include wf fits

omit wf in
/-- The overlay's half of the correspondence. -/
theorem overlay_resolve_iff {t : Bytes} {pos : TermPos} {v : Col} :
    snap.delta.resolve t pos = some v ↔ v.tag = 0 ∧ snap.base.overlayBase pos ≤ v.payload ∧
      (snap.delta.space pos).terms[v.payload - snap.base.overlayBase pos]? = some t := by
  have base := fits.space_base pos
  simp only [Delta.resolve, OverlaySpace.resolve, base]
  constructor
  · intro h
    obtain ⟨i, found, rfl⟩ := Option.map_eq_some_iff.mp h
    have get := (idxOf?_eq_some_iff (fits.nodup pos)).mp found
    exact ⟨rfl, by simp, by simpa using get⟩
  · rintro ⟨tag, le, get⟩
    rw [(idxOf?_eq_some_iff (fits.nodup pos)).mpr get]
    simp only [Option.map_some, Option.some.injEq]
    rw [Nat.add_sub_cancel' le]
    exact (Col.eq_dict_of_tag tag).symm

omit wf in
theorem overlay_decode {v : Col} {pos : TermPos} (tag : v.tag = 0)
    (le : snap.base.overlayBase pos ≤ v.payload) :
    snap.delta.decode v pos =
      (snap.delta.space pos).terms[v.payload - snap.base.overlayBase pos]? := by
  simp only [Delta.decode, OverlaySpace.decode, fits.space_base pos, tag, le, and_self, if_true]

/-- Resolving a term gives a valid value that decodes to what it is stored as. -/
theorem decodeValue_of_resolveCol {t : Bytes} {pos : TermPos} {v : Col}
    (h : snap.resolveCol t pos = some v) :
    snap.ValidCol v pos ∧ snap.decodeValue v pos = some (snap.base.dict.namedAt t pos) := by
  simp only [resolveCol, Segment.resolveColumn] at h
  cases e : snap.base.dict.resolveBytes t pos with
  | some w =>
      obtain ⟨valid, decoded⟩ := wf.decodeBytes_of_resolve e
      cases pos with
      | subject =>
          have eq : w = v := by simpa [e] using h
          subst eq
          have lt := Col.lt_dict_iff.mpr valid
          exact ⟨⟨valid.1, by have := valid.2; omega⟩, by simp [decodeValue, lt, decoded]⟩
      | predicate =>
          have eq : w = v := by simpa [e] using h
          subst eq
          have lt := Col.lt_dict_iff.mpr valid
          exact ⟨⟨valid.1, by have := valid.2; omega⟩, by simp [decodeValue, lt, decoded]⟩
      | object =>
          have eq : w = v := by simpa [e] using h
          subst eq
          refine ⟨?_, ?_⟩
          · rcases valid with ⟨tag, lt⟩ | tt | inline
            · exact Or.inl ⟨tag, by omega⟩
            · exact Or.inr (Or.inl tt)
            · exact Or.inr (Or.inr inline)
          · have inBase : ¬ (w.tag = 0 ∧ Col.dict snap.base.dict.nObjects ≤ w) := by
              rintro ⟨tag, le⟩
              rcases valid with hv | ⟨tag7, -⟩ | ⟨b, hb⟩
              · exact absurd (Col.lt_dict_iff.mpr hv) (not_lt.mpr le)
              · omega
              · have := InlineCodec.tag_tryInline hb
                omega
            simp only [decodeValue, if_neg inBase, decoded]
      | graph =>
          have eq : (⟨w.tag, w.payload + 1⟩ : Col) = v := by simpa [e] using h
          subst eq
          have tag : w.tag = 0 := valid.1
          have bound : w.payload < snap.base.dict.graphs.length := valid.2
          refine ⟨⟨tag, by simp, by simp only; omega⟩, ?_⟩
          have named : (⟨w.tag, w.payload + 1⟩ : Col) ≠ Col.dict 0 := by simp [Col.dict]
          have le : (⟨w.tag, w.payload + 1⟩ : Col) ≤ Col.dict snap.base.dict.graphs.length := by
            rw [tag]
            exact Col.dict_le_dict.mpr bound
          simp only [decodeValue, if_neg named, if_pos le, Nat.add_sub_cancel]
          exact decoded
  | none =>
      rw [e] at h
      rw [Dictionary.namedAt_of_missing e]
      obtain ⟨tag, le, get⟩ := (overlay_resolve_iff fits).mp h
      have bound := (List.getElem?_eq_some_iff.mp get).1
      have decoded := (overlay_decode fits tag le).trans get
      cases pos with
      | subject =>
          simp only [Segment.overlayBase] at le bound
          have ge : ¬ v < Col.dict snap.base.dict.nSubjects := by
            rw [Col.lt_dict_iff]
            omega
          exact ⟨⟨tag, by simp only [Delta.spaceLen]; omega⟩, by simp only [decodeValue, if_neg ge, decoded]⟩
      | predicate =>
          simp only [Segment.overlayBase] at le bound
          have ge : ¬ v < Col.dict snap.base.dict.predicates.length := by
            rw [Col.lt_dict_iff]
            omega
          exact ⟨⟨tag, by simp only [Delta.spaceLen]; omega⟩, by simp only [decodeValue, if_neg ge, decoded]⟩
      | object =>
          simp only [Segment.overlayBase] at le bound
          have beyond : v.tag = 0 ∧ Col.dict snap.base.dict.nObjects ≤ v :=
            ⟨tag, Col.dict_le_iff.mpr (Or.inr le)⟩
          exact ⟨Or.inl ⟨tag, by simp only [Delta.spaceLen]; omega⟩,
            by simp only [decodeValue, if_pos beyond, decoded]⟩
      | graph =>
          simp only [Segment.overlayBase] at le bound
          have named : v ≠ Col.dict 0 := by
            intro e
            rw [e] at le
            simp at le
          have above : ¬ v ≤ Col.dict snap.base.dict.graphs.length := by
            rw [not_le, Col.eq_dict_of_tag tag, Col.dict_lt_dict]
            omega
          exact ⟨⟨tag, by omega, by simp only [Delta.spaceLen]; omega⟩,
            by simp only [decodeValue, if_neg named, if_neg above, decoded]⟩

/-- A valid value decodes, and its term resolves back to it. -/
theorem resolveCol_of_validCol (accepted : snap.base.dict.Accepted) {v : Col} {pos : TermPos}
    (h : snap.ValidCol v pos) :
    ∃ t, snap.decodeValue v pos = some t ∧ snap.resolveCol t pos = some v := by
  -- a value of the base range goes through the dictionary, any other through the overlay
  have viaBase {w : Col} (valid : snap.base.dict.Valid w pos)
      (shift : (if pos = .graph then ⟨w.tag, w.payload + 1⟩ else w) = v) :
      ∃ t, snap.resolveCol t pos = some v ∧ snap.base.dict.namedAt t pos = t := by
    obtain ⟨t, decoded, resolved⟩ := wf.resolveBytes_of_valid accepted valid
    refine ⟨t, by simp only [resolveCol, Segment.resolveColumn, resolved, shift], ?_⟩
    rw [(wf.decodeBytes_of_resolve resolved).2] at decoded
    exact Option.some.inj decoded
  have viaOverlay (tag : v.tag = 0) (le : snap.base.overlayBase pos ≤ v.payload)
      (lt : v.payload - snap.base.overlayBase pos < (snap.delta.space pos).terms.length) :
      ∃ t, snap.resolveCol t pos = some v ∧ snap.base.dict.namedAt t pos = t := by
    have get := List.getElem?_eq_getElem lt
    have fresh := fits.fresh pos _ (List.getElem_mem lt)
    refine ⟨(snap.delta.space pos).terms[v.payload - snap.base.overlayBase pos], ?_,
      Dictionary.namedAt_of_missing fresh⟩
    simp only [resolveCol, Segment.resolveColumn, fresh]
    exact (overlay_resolve_iff fits).mpr ⟨tag, le, get⟩
  have resolved : ∃ t, snap.resolveCol t pos = some v ∧ snap.base.dict.namedAt t pos = t := by
    cases pos with
    | subject =>
        obtain ⟨tag, lt⟩ := h
        by_cases low : v.payload < snap.base.dict.nSubjects
        · exact viaBase (w := v) ⟨tag, low⟩ rfl
        · exact viaOverlay tag (by simpa [Segment.overlayBase] using low)
            (by simp only [Segment.overlayBase, Delta.spaceLen] at *; omega)
    | predicate =>
        obtain ⟨tag, lt⟩ := h
        by_cases low : v.payload < snap.base.dict.predicates.length
        · exact viaBase (w := v) ⟨tag, low⟩ rfl
        · exact viaOverlay tag (by simpa [Segment.overlayBase] using low)
            (by simp only [Segment.overlayBase, Delta.spaceLen] at *; omega)
    | object =>
        rcases h with ⟨tag, lt⟩ | tt | inline
        · by_cases low : v.payload < snap.base.dict.nObjects
          · exact viaBase (w := v) (Or.inl ⟨tag, low⟩) rfl
          · exact viaOverlay tag (by simpa [Segment.overlayBase] using low)
              (by simp only [Segment.overlayBase, Delta.spaceLen] at *; omega)
        · exact viaBase (w := v) (Or.inr (Or.inl tt)) rfl
        · exact viaBase (w := v) (Or.inr (Or.inr inline)) rfl
    | graph =>
        obtain ⟨tag, pos_, lt⟩ := h
        by_cases low : v.payload ≤ snap.base.dict.graphs.length
        · refine viaBase (w := ⟨v.tag, v.payload - 1⟩) ⟨tag, ?_⟩ ?_
          · simp only
            omega
          · simp only [if_true]
            rw [Nat.sub_add_cancel pos_]
        · exact viaOverlay tag (by simp only [Segment.overlayBase]; omega)
            (by simp only [Segment.overlayBase, Delta.spaceLen] at *; omega)
  obtain ⟨t, resolved, kept⟩ := resolved
  have decoded := (decodeValue_of_resolveCol wf fits resolved).2
  exact ⟨t, by rwa [kept] at decoded, resolved⟩

theorem resolveCol_eq_some_iff (accepted : snap.base.dict.Accepted) {t : Bytes} {pos : TermPos}
    {v : Col} : snap.resolveCol t pos = some v ↔
      snap.ValidCol v pos ∧ snap.decodeValue v pos = some (snap.base.dict.namedAt t pos) := by
  constructor
  · exact decodeValue_of_resolveCol wf fits
  · rintro ⟨valid, decoded⟩
    obtain ⟨b, here, back⟩ := resolveCol_of_validCol wf fits accepted valid
    rw [decoded, Option.some.injEq] at here
    cases found : snap.resolveCol t pos with
    | some w =>
        -- the value found is named by the same bytes
        obtain ⟨valid', decoded'⟩ := decodeValue_of_resolveCol wf fits found
        obtain ⟨b', here', back'⟩ := resolveCol_of_validCol wf fits accepted valid'
        rw [decoded', Option.some.injEq] at here'
        rw [← here', here, back] at back'
        exact back'.symm
    | none =>
        have missing : snap.base.dict.resolveBytes t pos = none := by
          cases e : snap.base.dict.resolveBytes t pos with
          | none => rfl
          | some w => simp [resolveCol, Segment.resolveColumn, e] at found
        rw [Dictionary.namedAt_of_missing missing] at here
        rw [← here, found] at back
        cases back

/-- A quad resolves to the valid key that decodes to what it is stored as. -/
theorem resolveKey_eq_some_iff (accepted : snap.base.dict.Accepted) {q : QuadTerms} {k : QuadKey} :
    snap.resolveKey q = some k ↔
      snap.ValidKey k ∧ snap.decodeKey k = some (q.named snap.base.dict) := by
  have zero : ¬ snap.ValidCol (Col.dict 0) .graph := by
    rintro ⟨-, h, -⟩
    simp at h
  have col {t : Bytes} {pos : TermPos} {v : Col} : snap.resolveCol t pos = some v ↔
      snap.ValidCol v pos ∧ snap.decodeValue v pos = some (snap.base.dict.namedAt t pos) :=
    resolveCol_eq_some_iff wf fits accepted
  obtain ⟨s, p, o, g⟩ := q
  obtain ⟨ks, kp, ko, kg⟩ := k
  cases g with
  | none =>
      simp only [resolveKey, Option.bind_eq_bind, Option.bind_eq_some_iff, Option.bind_some,
        decodeKey, col, Dictionary.namedAt, QuadTerms.named]
      constructor
      · rintro ⟨s', hs, p', hp, o', ho, eq⟩
        cases eq
        exact ⟨⟨hs.1, hp.1, ho.1, Or.inl rfl⟩, s, hs.2, p, hp.2, _, ho.2, by simp⟩
      · rintro ⟨valid, s', hs, p', hp, o', ho, eq⟩
        by_cases default_ : kg = Col.dict 0
        · rw [if_pos default_] at eq
          cases eq
          exact ⟨ks, ⟨valid.s, hs⟩, kp, ⟨valid.p, hp⟩, ko, ⟨valid.o, ho⟩, by rw [default_]⟩
        · rw [if_neg default_] at eq
          obtain ⟨g', -, eq⟩ := Option.bind_eq_some_iff.mp eq
          cases eq
  | some g =>
      simp only [resolveKey, Option.bind_eq_bind, Option.bind_eq_some_iff, decodeKey, col,
        Dictionary.namedAt, QuadTerms.named]
      constructor
      · rintro ⟨s', hs, p', hp, o', ho, g', hg, eq⟩
        cases eq
        have named : kg ≠ Col.dict 0 := fun e => zero (e ▸ hg.1)
        refine ⟨⟨hs.1, hp.1, ho.1, Or.inr hg.1⟩, s, hs.2, p, hp.2, _, ho.2, ?_⟩
        rw [if_neg named]
        exact Option.bind_eq_some_iff.mpr ⟨g, hg.2, rfl⟩
      · rintro ⟨valid, s', hs, p', hp, o', ho, eq⟩
        by_cases default_ : kg = Col.dict 0
        · rw [if_pos default_] at eq
          cases eq
        · rw [if_neg default_] at eq
          obtain ⟨g', hg, eq⟩ := Option.bind_eq_some_iff.mp eq
          cases eq
          exact ⟨ks, ⟨valid.s, hs⟩, kp, ⟨valid.p, hp⟩, ko, ⟨valid.o, ho⟩, kg,
            ⟨valid.g.resolve_left default_, hg⟩, rfl⟩

/-- A valid key decodes, and its quad resolves back to it. -/
theorem resolveKey_of_validKey (accepted : snap.base.dict.Accepted) {k : QuadKey}
    (valid : snap.ValidKey k) : ∃ q, snap.decodeKey k = some q ∧ snap.resolveKey q = some k := by
  obtain ⟨s, ds, hs⟩ := resolveCol_of_validCol wf fits accepted valid.s
  obtain ⟨p, dp, hp⟩ := resolveCol_of_validCol wf fits accepted valid.p
  obtain ⟨o, do_, ho⟩ := resolveCol_of_validCol wf fits accepted valid.o
  by_cases default_ : k.g = Col.dict 0
  · exact ⟨⟨s, p, o, none⟩, by simp [decodeKey, ds, dp, do_, default_],
      by simp [resolveKey, hs, hp, ho, ← default_]⟩
  · obtain ⟨g, dg, hg⟩ :=
      resolveCol_of_validCol wf fits accepted (valid.g.resolve_left default_)
    exact ⟨⟨s, p, o, some g⟩, by simp [decodeKey, ds, dp, do_, dg, default_],
      by simp [resolveKey, hs, hp, ho, hg]⟩

/-- What a valid key decodes to resolves to no other key. -/
theorem resolveKey_of_decodeKey (accepted : snap.base.dict.Accepted) {q : QuadTerms} {k : QuadKey}
    (valid : snap.ValidKey k) (decoded : snap.decodeKey k = some q) :
    snap.resolveKey q = some k := by
  obtain ⟨q', here, resolved⟩ := resolveKey_of_validKey wf fits accepted valid
  rw [decoded, Option.some.injEq] at here
  exact here ▸ resolved

end Columns

/-! ## Interning -/

/-- The snapshot with more terms interned. -/
structure Extends (snap snap' : Snapshot) : Prop where
  base : snap'.base = snap.base
  generation : snap'.generation = snap.generation
  epoch : snap'.epoch = snap.epoch
  delta : snap.delta.Extends snap'.delta

omit [InlineCodec] in
theorem Extends.refl (snap : Snapshot) : snap.Extends snap := ⟨rfl, rfl, rfl, Delta.Extends.refl _⟩

omit [InlineCodec] in
theorem Extends.trans {a b c : Snapshot} (h1 : a.Extends b) (h2 : b.Extends c) : a.Extends c :=
  ⟨h2.base.trans h1.base, h2.generation.trans h1.generation, h2.epoch.trans h1.epoch,
    h1.delta.trans h2.delta⟩

omit [InlineCodec] in
theorem Extends.spaceLen {a b : Snapshot} (h : a.Extends b) (pos : TermPos) :
    a.delta.spaceLen pos ≤ b.delta.spaceLen pos := (h.delta.terms pos).length_le

theorem Extends.validCol {a b : Snapshot} (h : a.Extends b) {v : Col} {pos : TermPos}
    (valid : a.ValidCol v pos) : b.ValidCol v pos := by
  have len := h.spaceLen pos
  cases pos with
  | subject => exact ⟨valid.1, by have := valid.2; rw [h.base]; omega⟩
  | predicate => exact ⟨valid.1, by have := valid.2; rw [h.base]; omega⟩
  | graph => exact ⟨valid.1, valid.2.1, by have := valid.2.2; rw [h.base]; omega⟩
  | object =>
      rcases valid with ⟨tag, lt⟩ | ⟨tag, lt⟩ | inline
      · exact Or.inl ⟨tag, by rw [h.base]; omega⟩
      · exact Or.inr (Or.inl ⟨tag, by rw [h.base]; exact lt⟩)
      · exact Or.inr (Or.inr inline)

theorem Extends.validKey {a b : Snapshot} (h : a.Extends b) {k : QuadKey}
    (valid : a.ValidKey k) : b.ValidKey k :=
  ⟨h.validCol valid.s, h.validCol valid.p, h.validCol valid.o, valid.g.imp id h.validCol⟩

omit [InlineCodec] in
theorem idxOf?_prefix {l l' : List Bytes} (h : l <+: l') {t : Bytes} {i : Nat}
    (found : l.idxOf? t = some i) : l'.idxOf? t = some i := by
  obtain ⟨r, rfl⟩ := h
  rw [List.idxOf?, List.findIdx?_append]
  rw [List.idxOf?] at found
  simp [found]

/-- Interning never moves a term that resolves. -/
theorem Extends.resolveCol {a b : Snapshot} (h : a.Extends b) {t : Bytes} {pos : TermPos} {v : Col}
    (resolved : a.resolveCol t pos = some v) : b.resolveCol t pos = some v := by
  simp only [Snapshot.resolveCol, h.base] at resolved ⊢
  cases e : a.base.resolveColumn t pos with
  | some w => simpa [e] using resolved
  | none =>
      rw [e] at resolved
      obtain ⟨i, found, rfl⟩ := Option.map_eq_some_iff.mp resolved
      simp only [Delta.resolve, OverlaySpace.resolve, idxOf?_prefix (h.delta.terms pos) found,
        h.delta.space_base pos, Option.map_some]

theorem Extends.resolveKey {a b : Snapshot} (h : a.Extends b) {q : QuadTerms} {k : QuadKey}
    (resolved : a.resolveKey q = some k) : b.resolveKey q = some k := by
  simp only [Snapshot.resolveKey, Option.bind_eq_bind, Option.bind_eq_some_iff] at resolved ⊢
  obtain ⟨s, hs, p, hp, o, ho, graph⟩ := resolved
  refine ⟨s, h.resolveCol hs, p, h.resolveCol hp, o, h.resolveCol ho, ?_⟩
  cases e : q.g with
  | none => simpa [e] using graph
  | some gt =>
      simp only [e, Option.bind_eq_some_iff] at graph ⊢
      obtain ⟨g, hg, eq⟩ := graph
      exact ⟨g, h.resolveCol hg, eq⟩

omit [InlineCodec] in
theorem Extends.containsKey {a b : Snapshot} (h : a.Extends b) (k : QuadKey) :
    b.containsKey k = a.containsKey k := by
  simp only [Snapshot.containsKey, Delta.probe_eq, h.delta.eventsAt, h.base, h.epoch]

/-- Interning a term makes it resolve, extends the spaces and keeps the fit. -/
theorem internCol_spec {snap : Snapshot} (fits : snap.delta.Fits snap.base) (t : Bytes)
    (pos : TermPos) :
    snap.Extends (snap.internCol t pos).1 ∧
      (snap.internCol t pos).1.delta.Fits (snap.internCol t pos).1.base ∧
      (snap.internCol t pos).1.resolveCol t pos = some (snap.internCol t pos).2 := by
  simp only [internCol]
  cases e : snap.resolveCol t pos with
  | some v => exact ⟨Extends.refl _, fits, e⟩
  | none =>
      have baseMiss : snap.base.resolveColumn t pos = none := by
        cases h : snap.base.resolveColumn t pos with
        | none => rfl
        | some w => simp [resolveCol, h] at e
      have absent : snap.delta.resolve t pos = none := by simpa [resolveCol, baseMiss] using e
      simp only [internOverlay]
      generalize (Option.bind _ _ : Option TermId) = aliasId
      have ext := Delta.extends_intern aliasId absent
      have space := Delta.space_intern aliasId absent
      refine ⟨⟨rfl, rfl, rfl, ext⟩, ⟨?_, ?_, ?_, ?_⟩, ?_⟩
      · intro p
        rw [(space p).1, fits.space_base p]
      · intro p
        rw [(space p).2.1]
        by_cases same : p = pos
        · subst same
          have new : t ∉ (snap.delta.space p).terms := by
            simp only [Delta.resolve, OverlaySpace.resolve, Option.map_eq_none_iff,
              List.idxOf?_eq_none_iff] at absent
            exact absent
          simpa using List.nodup_append.mpr ⟨fits.nodup p, List.nodup_singleton t, by
            intro a ha b hb
            obtain rfl := List.mem_singleton.mp hb
            exact fun eq => new (eq ▸ ha)⟩
        · simpa [same] using fits.nodup p
      · intro p u hu
        rw [(space p).2.1] at hu
        rcases List.mem_append.mp hu with old | new
        · exact fits.fresh p u old
        · by_cases same : p = pos
          · subst same
            obtain rfl : u = t := by simpa using new
            simp only [Segment.resolveColumn] at baseMiss
            cases h : snap.base.dict.resolveBytes u p with
            | none => rfl
            | some w => simp [h] at baseMiss
          · simp [same] at new
      · intro p
        rw [(space p).2.1, (space p).2.2, List.length_append, List.length_append,
          fits.aliases_length p]
        by_cases same : p = pos
        · simp [same]
        · simp [same]
      · simp only [resolveCol, baseMiss, Delta.resolve, OverlaySpace.resolve,
          (space pos).1, (space pos).2.1, if_true, Delta.intern_col absent]
        have new : t ∉ (snap.delta.space pos).terms := by
          simp only [Delta.resolve, OverlaySpace.resolve, Option.map_eq_none_iff,
            List.idxOf?_eq_none_iff] at absent
          exact absent
        have found : ((snap.delta.space pos).terms ++ [t]).idxOf? t =
            some (snap.delta.space pos).terms.length := by
          have missing : (snap.delta.space pos).terms.idxOf? t = none :=
            List.idxOf?_eq_none_iff.mpr new
          rw [List.idxOf?] at missing ⊢
          simp [List.findIdx?_append, missing]
        rw [found]
        rfl

/-- Interning a quad makes it resolve to the key it returns. -/
theorem internKey_spec {snap : Snapshot} (fits : snap.delta.Fits snap.base) (q : QuadTerms) :
    snap.Extends (snap.internKey q).1 ∧
      (snap.internKey q).1.delta.Fits (snap.internKey q).1.base ∧
      (snap.internKey q).1.resolveKey q = some (snap.internKey q).2 := by
  obtain ⟨e1, f1, r1⟩ := internCol_spec fits q.s .subject
  obtain ⟨e2, f2, r2⟩ := internCol_spec f1 q.p .predicate
  obtain ⟨e3, f3, r3⟩ := internCol_spec f2 q.o .object
  simp only [internKey]
  cases hg : q.g with
  | none =>
      simp only
      refine ⟨e1.trans (e2.trans e3), f3, ?_⟩
      simp only [resolveKey, hg, (e2.trans e3).resolveCol r1, e3.resolveCol r2, r3,
        Option.bind_eq_bind, Option.bind_some]
  | some g =>
      obtain ⟨e4, f4, r4⟩ := internCol_spec f3 g .graph
      simp only
      refine ⟨e1.trans (e2.trans (e3.trans e4)), f4, ?_⟩
      simp only [resolveKey, hg, (e2.trans (e3.trans e4)).resolveCol r1,
        (e3.trans e4).resolveCol r2, e4.resolveCol r3, r4, Option.bind_eq_bind, Option.bind_some]

/-! ## Well-formed snapshots -/

/-- The invariant of every snapshot of a store. -/
structure WF (snap : Snapshot) : Prop where
  holds : ∃ quads, snap.base.Holds quads
  fits : snap.delta.Fits snap.base
  coherent : snap.delta.Coherent
  keysValid : ∀ q, snap.delta.eventsAt q ≠ [] → snap.ValidKey q
  sorted : ∀ q, Delta.EpochSorted (snap.delta.eventsAt q)

theorem WF.dict {snap : Snapshot} (wf : snap.WF) : snap.base.dict.WF :=
  wf.holds.elim fun _ h => h.dict

theorem validKey_of_base {snap : Snapshot} {k : QuadKey} (h : snap.base.dict.ValidKey k) :
    snap.ValidKey k where
  s := ⟨h.s.1, by have := h.s.2; omega⟩
  p := ⟨h.p.1, by have := h.p.2; omega⟩
  o := by
    rcases h.o with ⟨tag, lt⟩ | tt | inline
    · exact Or.inl ⟨tag, by omega⟩
    · exact Or.inr (Or.inl tt)
    · exact Or.inr (Or.inr inline)
  g := by
    by_cases default_ : k.g = Col.dict 0
    · exact Or.inl default_
    · have le := h.g_le
      refine Or.inr ⟨h.g_tag, ?_, by omega⟩
      by_contra zero
      apply default_
      rw [Col.eq_dict_of_tag h.g_tag]
      congr 1
      omega

/-- A visible key names terms of the snapshot. -/
theorem WF.validKey_of_containsKey {snap : Snapshot} (wf : snap.WF) {k : QuadKey}
    (h : snap.containsKey k = true) : snap.ValidKey k := by
  by_cases none_ : snap.delta.eventsAt k = []
  · simp only [containsKey, Delta.probe_eq, none_, Delta.effective_nil] at h
    obtain ⟨quads, holds⟩ := wf.holds
    exact validKey_of_base (holds.valid k (holds.containsQuad_iff.mp h))
  · exact wf.keysValid k none_

/-- A quad is shown, as it is stored, when it resolves to a visible key. -/
theorem WF.contains_iff {snap : Snapshot} (wf : snap.WF) (accepted : snap.base.dict.Accepted)
    {q : QuadTerms} : snap.Contains (q.named snap.base.dict) ↔
      ∃ k, snap.resolveKey q = some k ∧ snap.containsKey k = true := by
  constructor
  · rintro ⟨k, visible, decoded⟩
    exact ⟨k, (resolveKey_eq_some_iff wf.dict wf.fits accepted).mpr
      ⟨wf.validKey_of_containsKey visible, decoded⟩, visible⟩
  · rintro ⟨k, resolved, visible⟩
    exact ⟨k, visible, ((resolveKey_eq_some_iff wf.dict wf.fits accepted).mp resolved).2⟩

/-- Interning keeps the invariant. -/
theorem WF.extends {snap snap' : Snapshot} (wf : snap.WF) (ext : snap.Extends snap')
    (fits : snap'.delta.Fits snap'.base) : snap'.WF where
  holds := by rw [ext.base]; exact wf.holds
  fits := fits
  coherent := ext.delta.coherent wf.coherent
  keysValid := by
    intro q h
    rw [ext.delta.eventsAt] at h
    exact ext.validKey (wf.keysValid q h)
  sorted := by
    intro q
    rw [ext.delta.eventsAt]
    exact wf.sorted q

/-- Interning leaves the terms of a valid key alone. -/
theorem Extends.decodeKey {snap snap' : Snapshot} (ext : snap.Extends snap')
    (accepted : snap.base.dict.Accepted) (wf : snap.base.dict.WF) (fits : snap.delta.Fits snap.base)
    (fits' : snap'.delta.Fits snap'.base) {k : QuadKey} (valid : snap.ValidKey k) :
    snap'.decodeKey k = snap.decodeKey k := by
  obtain ⟨q, decoded, resolved⟩ := resolveKey_of_validKey wf fits accepted valid
  have stored := ((resolveKey_eq_some_iff wf fits accepted).mp resolved).2
  have there := ((resolveKey_eq_some_iff (ext.base ▸ wf) fits' (ext.base ▸ accepted)).mp
    (ext.resolveKey resolved)).2
  rw [there, ext.base, stored]

/-- Interning changes no shown quad. -/
theorem WF.contains_extends {snap snap' : Snapshot} (wf : snap.WF)
    (accepted : snap.base.dict.Accepted) (ext : snap.Extends snap') (wf' : snap'.WF)
    {q : QuadTerms} : snap'.Contains q ↔ snap.Contains q := by
  refine exists_congr fun k => ?_
  rw [ext.containsKey]
  refine and_congr_right fun visible => ?_
  rw [ext.decodeKey accepted wf.dict wf.fits wf'.fits (wf.validKey_of_containsKey visible)]

/-- The snapshot at another epoch. -/
def atEpoch (snap : Snapshot) (epoch : Nat) : Snapshot := { snap with epoch := epoch }

theorem WF.atEpoch {snap : Snapshot} (wf : snap.WF) (epoch : Nat) : (snap.atEpoch epoch).WF :=
  ⟨wf.holds, wf.fits, wf.coherent, fun k some_ =>
    have v := wf.keysValid k some_
    ⟨v.s, v.p, v.o, v.g⟩, wf.sorted⟩

end Snapshot

end Graphy
