import Graphy.Store.Compaction
import Graphy.Store.Proofs.GroupAnswers

/-!
# One identity for subjects and objects

The shared section gives a base term of both positions one id.  An overlay entry takes
over the id its term has in the other position, so interning keeps the ids unified.
-/

namespace Graphy

variable [InlineCodec]

/-- The dictionary gives a term of both positions one value. -/
theorem Dictionary.WF.unified {d : Dictionary} (wf : d.WF) (accepted : d.Accepted) {b : Bytes}
    {v w : Col} (subject : d.resolveBytes b .subject = some v)
    (object : d.resolveBytes b .object = some w) :
    TermId.rawTermId d.shared.length v .subject = TermId.rawTermId d.shared.length w .object := by
  have read := (accepted.subject v b (wf.decodeBytes_of_resolve subject).2).read
  simp only [resolveBytes, read, Option.bind_some] at subject object
  simp only [resolveTerm, inSo] at subject
  simp only [resolveObject] at object
  have mem {l : List Bytes} {i : Nat} (found : locate l b = some i) : b ∈ l := by
    by_contra absent
    rw [locate, List.idxOf?_eq_none_iff.mpr absent] at found
    cases found
  cases shared : locate d.shared b with
  | some i =>
      rw [tryInline_eq_none (wf.shared_kind b (mem shared))] at object
      simp only [inSo, shared, Option.some.injEq] at subject object
      have bound := (List.getElem?_eq_some_iff.mp
        ((locate_eq_some_iff wf.shared_nodup).mp shared)).1
      rw [← subject, ← object]
      simp [TermId.rawTermId, bound]
  | none =>
      rw [shared] at subject
      obtain ⟨i, own, -⟩ := Option.map_eq_some_iff.mp subject
      rw [tryInline_eq_none (wf.subjects_kind b (mem own))] at object
      simp only [inSo, shared] at object
      obtain ⟨j, other, -⟩ := Option.map_eq_some_iff.mp object
      exact absurd (mem other) (wf.subjects_objects b (mem own))

namespace Snapshot

/-- The other position of a subject or object. -/
def opposite : TermPos → Option TermPos
  | .subject => some .object
  | .object => some .subject
  | _ => none

/-- The public id a term has in a position. -/
def identity (snap : Snapshot) (t : Bytes) (pos : TermPos) : Option TermId :=
  (snap.resolveCol t pos).map fun v => snap.nodeTermId v pos

theorem unified_iff {snap : Snapshot} : snap.Unified ↔ ∀ t i j,
    snap.identity t .subject = some i → snap.identity t .object = some j → i = j := by
  constructor
  · rintro unified t i j hi hj
    obtain ⟨v, hv, rfl⟩ := Option.map_eq_some_iff.mp hi
    obtain ⟨w, hw, rfl⟩ := Option.map_eq_some_iff.mp hj
    exact unified t v w hv hw
  · intro same t v w hv hw
    refine same t _ _ ?_ ?_
    · rw [identity, hv]
      rfl
    · rw [identity, hw]
      rfl

/-- A subject or object value of the overlay lies directly above the base range. -/
theorem isOverlay_iff {snap : Snapshot} {v : Col} {pos : TermPos} (valid : snap.ValidCol v pos)
    (node : opposite pos ≠ none) :
    snap.isOverlay v pos = true ↔ v.tag = 0 ∧ snap.base.overlayBase pos ≤ v.payload := by
  cases pos with
  | subject =>
      have tag := valid.1
      simp only [isOverlay, decide_eq_true_eq, Col.dict_le_iff, Segment.overlayBase, tag, true_and]
      simp
  | object =>
      simp only [isOverlay, decide_eq_true_eq, Col.dict_le_iff, Segment.overlayBase]
      omega
  | predicate => exact absurd rfl node
  | graph => exact absurd rfl node

/-- The id of a base value. -/
theorem nodeTermId_base {snap : Snapshot} (wf : snap.base.dict.WF) {t : Bytes} {v : Col}
    {pos : TermPos} (node : opposite pos ≠ none)
    (resolved : snap.base.dict.resolveBytes t pos = some v) :
    snap.nodeTermId v pos = TermId.rawTermId snap.base.dict.shared.length v pos := by
  have valid := (wf.decodeBytes_of_resolve resolved).1
  have low : snap.isOverlay v pos = false := by
    cases pos with
    | subject =>
        simp only [isOverlay, decide_eq_false_iff_not, not_le]
        exact Col.lt_dict_iff.mpr valid
    | object =>
        simp only [isOverlay, decide_eq_false_iff_not, not_and, not_le]
        intro tag
        rcases valid with hv | ⟨tag7, -⟩ | ⟨b, hb⟩
        · exact Col.lt_dict_iff.mpr hv
        · omega
        · have := InlineCodec.tag_tryInline hb
          omega
    | predicate => exact absurd rfl node
    | graph => exact absurd rfl node
  simp [nodeTermId, low]

/-- A base term resolves to its base value. -/
theorem resolveCol_base {snap : Snapshot} {t : Bytes} {pos : TermPos} (node : opposite pos ≠ none) :
    snap.resolveCol t pos = (snap.base.dict.resolveBytes t pos).or (snap.delta.resolve t pos) := by
  have plain : pos ≠ .graph := by
    rintro rfl
    exact node rfl
  simp only [resolveCol, Segment.resolveColumn]
  cases snap.base.dict.resolveBytes t pos with
  | some v => simp [plain]
  | none => rfl

/-- The id of a base term. -/
theorem identity_base {snap : Snapshot} (wf : snap.base.dict.WF) {t : Bytes} {v : Col}
    {pos : TermPos} (node : opposite pos ≠ none)
    (found : snap.base.dict.resolveBytes t pos = some v) :
    snap.identity t pos = some (TermId.rawTermId snap.base.dict.shared.length v pos) := by
  rw [identity, resolveCol_base node, found, Option.some_or, Option.map_some,
    nodeTermId_base wf node found]

/-- The id of a term the base lacks. -/
theorem identity_overlay {snap : Snapshot} (wf : snap.base.dict.WF)
    (fits : snap.delta.Fits snap.base) {t : Bytes} {pos : TermPos} (node : opposite pos ≠ none)
    (missing : snap.base.dict.resolveBytes t pos = none) :
    snap.identity t pos = (snap.delta.resolve t pos).map fun v =>
      (snap.delta.canon v pos).getD (TermId.rawTermId snap.base.dict.shared.length v pos) := by
  have resolved := @resolveCol_base _ snap t pos node
  rw [missing, Option.none_or] at resolved
  rw [identity, resolved]
  cases overlay : snap.delta.resolve t pos with
  | none => rfl
  | some v =>
      obtain ⟨tag, le, -⟩ := (overlay_resolve_iff fits).mp overlay
      have valid := (decodeValue_of_resolveCol wf fits (resolved.trans overlay)).1
      have high := (isOverlay_iff valid node).mpr ⟨tag, le⟩
      simp only [Option.map_some, nodeTermId, high, if_true]

/-- The alias an overlay entry gets is the id its term has in the other position. -/
theorem internOverlay_eq {snap : Snapshot} (wf : snap.base.dict.WF)
    (fits : snap.delta.Fits snap.base) (t : Bytes) (pos : TermPos) :
    internOverlay snap.base snap.delta t pos =
      snap.delta.intern t pos ((opposite pos).bind fun opp => snap.identity t opp) := by
  cases pos with
  | subject =>
      have node : opposite .object ≠ none := by simp [opposite]
      simp only [internOverlay, opposite, Option.bind_some]
      cases found : snap.base.dict.resolveBytes t .object with
      | some v => rw [identity_base wf node found]
      | none => rw [identity_overlay wf fits node found]
  | object =>
      have node : opposite .subject ≠ none := by simp [opposite]
      simp only [internOverlay, opposite, Option.bind_some]
      cases found : snap.base.dict.resolveBytes t .subject with
      | some v => rw [identity_base wf node found]
      | none => rw [identity_overlay wf fits node found]
  | predicate => rfl
  | graph => rfl

/-- Interning never changes the id of a value. -/
theorem nodeTermId_extends {a b : Snapshot} (fits : a.delta.Fits a.base) (ext : a.Extends b)
    {v : Col} {pos : TermPos} (valid : a.ValidCol v pos) (node : opposite pos ≠ none) :
    b.nodeTermId v pos = a.nodeTermId v pos := by
  have side : b.isOverlay v pos = a.isOverlay v pos := by
    cases pos <;> simp only [isOverlay, ext.base]
  simp only [nodeTermId, side, ext.base]
  split
  · rename_i high
    obtain ⟨tag, le⟩ := (isOverlay_iff valid node).mp high
    have bound : v.payload - a.base.overlayBase pos < (a.delta.space pos).aliases.length := by
      rw [fits.aliases_length]
      cases pos with
      | subject =>
          have := valid.2
          simp only [Segment.overlayBase, Delta.spaceLen] at *
          omega
      | object =>
          rcases valid with ⟨-, lt⟩ | ⟨tag7, -⟩ | ⟨b, hb⟩
          · simp only [Segment.overlayBase, Delta.spaceLen] at *
            omega
          · omega
          · have := InlineCodec.tag_tryInline hb
            omega
      | predicate => exact absurd rfl node
      | graph => exact absurd rfl node
    have same : (b.delta.space pos).aliases[v.payload - a.base.overlayBase pos]? =
        (a.delta.space pos).aliases[v.payload - a.base.overlayBase pos]? := by
      obtain ⟨rest, eq⟩ := ext.delta.aliases pos
      rw [← eq, List.getElem?_append_left bound]
    simp only [Delta.canon, ext.delta.space_base, fits.space_base, same]
  · rfl

omit [InlineCodec] in
theorem resolve_eq_none_iff {d : Delta} {t : Bytes} {pos : TermPos} :
    d.resolve t pos = none ↔ t ∉ (d.space pos).terms := by
  simp only [Delta.resolve, OverlaySpace.resolve, Option.map_eq_none_iff, List.idxOf?_eq_none_iff]

/-- Interning a missing term is one entry of its overlay space. -/
theorem internCol_new {snap : Snapshot} (wf : snap.base.dict.WF)
    (fits : snap.delta.Fits snap.base) {t : Bytes} {pos : TermPos}
    (missing : snap.resolveCol t pos = none) :
    snap.delta.resolve t pos = none ∧ (snap.internCol t pos).1.delta =
      (snap.delta.intern t pos ((opposite pos).bind fun opp => snap.identity t opp)).1 := by
  have absent : snap.delta.resolve t pos = none := by
    simp only [resolveCol] at missing
    cases found : snap.base.resolveColumn t pos with
    | none => simpa [found] using missing
    | some v => simp [found] at missing
  refine ⟨absent, ?_⟩
  rw [← internOverlay_eq wf fits, internCol, missing]

/-- Interning a missing term makes no other term resolve. -/
theorem resolveCol_internCol {snap : Snapshot} (wf : snap.base.dict.WF)
    (fits : snap.delta.Fits snap.base) {t t' : Bytes} {pos p : TermPos} {v : Col}
    (missing : snap.resolveCol t pos = none) (h : (snap.internCol t pos).1.resolveCol t' p = some v) :
    snap.resolveCol t' p = some v ∨ t' = t ∧ p = pos := by
  obtain ⟨absent, delta⟩ := internCol_new wf fits missing
  obtain ⟨ext, -, -⟩ := internCol_spec fits t pos
  by_cases new : t' = t ∧ p = pos
  · exact Or.inr new
  · left
    cases old : snap.resolveCol t' p with
    | some w =>
        rw [ext.resolveCol old] at h
        exact h
    | none =>
        obtain ⟨absent', -⟩ := internCol_new wf fits old
        have base : snap.base.resolveColumn t' p = none := by
          cases found : snap.base.resolveColumn t' p with
          | none => rfl
          | some w => simp [resolveCol, found] at old
        have inside : t' ∈ ((snap.internCol t pos).1.delta.space p).terms := by
          by_contra outside
          simp only [resolveCol, ext.base, base] at h
          rw [resolve_eq_none_iff.mpr outside] at h
          cases h
        rw [delta, (Delta.space_intern _ absent p).2.1] at inside
        rcases List.mem_append.mp inside with before | added
        · exact absurd before (resolve_eq_none_iff.mp absent')
        · by_cases same : p = pos
          · rw [if_pos same] at added
            exact absurd ⟨List.mem_singleton.mp added, same⟩ new
          · rw [if_neg same] at added
            cases added

/-- A new entry takes over the id of its term. -/
theorem identity_internCol {snap : Snapshot} (wf : snap.base.dict.WF)
    (fits : snap.delta.Fits snap.base) {t : Bytes} {pos opp : TermPos} {i j : TermId}
    (missing : snap.resolveCol t pos = none) (other : opposite pos = some opp)
    (held : snap.identity t opp = some j) (h : (snap.internCol t pos).1.identity t pos = some i) :
    i = j := by
  obtain ⟨absent, delta⟩ := internCol_new wf fits missing
  obtain ⟨ext, fits', resolved⟩ := internCol_spec fits t pos
  have node : opposite pos ≠ none := by simp [other]
  have shared : Delta.aliased pos = true := by
    cases pos with
    | subject => rfl
    | object => rfl
    | predicate => exact absurd rfl node
    | graph => exact absurd rfl node
  have col : (snap.internCol t pos).2 =
      Col.dict (snap.base.overlayBase pos + (snap.delta.space pos).terms.length) := by
    rw [internCol, missing]
    simp only
    rw [internOverlay_eq wf fits, Delta.intern_col absent, fits.space_base]
  have space := Delta.space_intern ((opposite pos).bind fun opp => snap.identity t opp) absent pos
  rw [← delta] at space
  obtain ⟨v, resolved', rfl⟩ := Option.map_eq_some_iff.mp h
  rw [resolved, col, Option.some.injEq] at resolved'
  subst resolved'
  have valid := (decodeValue_of_resolveCol (by rw [ext.base]; exact wf) fits' resolved).1
  rw [col] at valid
  have high := (isOverlay_iff valid node).mpr ⟨rfl, by
    rw [ext.base]
    simp [Col.dict]⟩
  have entry : (snap.internCol t pos).1.delta.canon
      (Col.dict (snap.base.overlayBase pos + (snap.delta.space pos).terms.length)) pos = some j := by
    simp only [Delta.canon, shared, if_true, space.1, space.2.2, fits.space_base, other,
      Option.bind_some, held, ← fits.aliases_length]
    simp [Col.dict]
  simp only [nodeTermId, high, if_true, entry, Option.getD_some]

theorem Unified.internCol {snap : Snapshot} (unified : snap.Unified) (wf : snap.base.dict.WF)
    (fits : snap.delta.Fits snap.base) (t : Bytes) (pos : TermPos) :
    (snap.internCol t pos).1.Unified := by
  cases missing : snap.resolveCol t pos with
  | some v => simpa only [Snapshot.internCol, missing] using unified
  | none =>
      obtain ⟨ext, -, -⟩ := internCol_spec fits t pos
      -- an id that is not the new entry's is one of the ids before
      have old {t' : Bytes} {p : TermPos} {i : TermId} (node : opposite p ≠ none)
          (h : (snap.internCol t pos).1.identity t' p = some i) :
          snap.identity t' p = some i ∨ t' = t ∧ p = pos := by
        obtain ⟨v, resolved, rfl⟩ := Option.map_eq_some_iff.mp h
        rcases resolveCol_internCol wf fits missing resolved with before | new
        · left
          have valid := (decodeValue_of_resolveCol wf fits before).1
          rw [identity, before, Option.map_some, nodeTermId_extends fits ext valid node]
        · exact Or.inr new
      rw [unified_iff] at unified ⊢
      intro t' i j hi hj
      rcases old (by simp [opposite]) hi with oldI | ⟨rfl, rfl⟩
      · rcases old (by simp [opposite]) hj with oldJ | ⟨rfl, rfl⟩
        · exact unified t' i j oldI oldJ
        · exact (identity_internCol wf fits missing rfl oldI hj).symm
      · rcases old (by simp [opposite]) hj with oldJ | ⟨-, side⟩
        · exact identity_internCol wf fits missing rfl oldJ hi
        · cases side

theorem Unified.internKey {snap : Snapshot} (unified : snap.Unified) (wf : snap.base.dict.WF)
    (fits : snap.delta.Fits snap.base) (q : QuadTerms) :
    (snap.internKey q).1.Unified := by
  obtain ⟨e1, f1, -⟩ := internCol_spec fits q.s .subject
  have w1 : (snap.internCol q.s .subject).1.base.dict.WF := by rw [e1.base]; exact wf
  have u1 := unified.internCol wf fits q.s .subject
  obtain ⟨e2, f2, -⟩ := internCol_spec f1 q.p .predicate
  have w2 : ((snap.internCol q.s .subject).1.internCol q.p .predicate).1.base.dict.WF := by
    rw [e2.base]
    exact w1
  have u2 := u1.internCol w1 f1 q.p .predicate
  obtain ⟨e3, f3, -⟩ := internCol_spec f2 q.o .object
  have u3 := u2.internCol w2 f2 q.o .object
  simp only [Snapshot.internKey]
  cases q.g with
  | none => exact u3
  | some g =>
      refine u3.internCol ?_ f3 g .graph
      rw [e3.base]
      exact w2

/-- The ids depend on the base and the overlay spaces only. -/
theorem Unified.of_spaces {a b : Snapshot} (unified : a.Unified) (base : b.base = a.base)
    (space : ∀ pos, b.delta.space pos = a.delta.space pos) : b.Unified := by
  intro t v w hv hw
  simp only [resolveCol, Delta.resolve, base, space] at hv hw
  have same := unified t v w hv hw
  simp only [termId, nodeTermId, isOverlay, Delta.canon, base, space] at same ⊢
  exact same

theorem unified_fresh {base : Segment} (wf : base.dict.WF) (accepted : base.dict.Accepted)
    (generation : Nat) : (base.freshSnapshot generation).Unified := by
  intro t v w hv hw
  have missing (pos : TermPos) : (base.freshSnapshot generation).delta.resolve t pos = none := by
    cases pos <;> rfl
  rw [resolveCol_base (by simp [opposite]), missing, Option.or_none] at hv hw
  change (base.freshSnapshot generation).nodeTermId v .subject =
    (base.freshSnapshot generation).nodeTermId w .object
  rw [nodeTermId_base wf (by simp [opposite]) hv, nodeTermId_base wf (by simp [opposite]) hw]
  exact wf.unified accepted hv hw

end Snapshot

end Graphy
