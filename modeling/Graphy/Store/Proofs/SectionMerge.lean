import Graphy.Core.Proofs.Spelling
import Graphy.Store.DictMerge
import Graphy.Store.Proofs.Group

/-!
# Merging the sections

The components of the overlay triple terms, and the sections that are merged from the base,
the overlay and these components.  Every section is ascending, and every id with a new
position is at its old bytes there.
-/

namespace Graphy

variable [InlineCodec]

/-! ## What a position takes -/

/-- A node decodes to what may stand in its position, an object is spelled as the encoder
does. -/
def TakenAt (b : Bytes) : TermPos → Prop
  | .subject | .graph => Dictionary.AcceptedNode b true
  | .predicate => Dictionary.AcceptedNode b false
  | .object => Term.Canonical b

/-- The overlay holds what its positions take. -/
def Delta.Clean (d : Delta) : Prop := ∀ pos, ∀ b ∈ (d.space pos).terms, TakenAt b pos

/-- The sections ascend. -/
structure Dictionary.Sorted (d : Dictionary) : Prop where
  shared : d.shared.Pairwise (· < ·)
  subjects : d.subjects.Pairwise (· < ·)
  predicates : d.predicates.Pairwise (· < ·)
  objects : d.objects.Pairwise (· < ·)
  graphs : d.graphs.Pairwise (· < ·)

omit [InlineCodec] in
theorem Dictionary.AcceptedNode.canonical {b : Bytes} {allowBlank : Bool}
    (h : AcceptedNode b allowBlank) : Term.Canonical b := ⟨_, h.read, rfl⟩

namespace Snapshot

variable {snap : Snapshot} (sound : snap.Sound)
include sound

/-- An overlay value decodes to its bytes. -/
theorem decodeValue_overlay {pos : TermPos} {j : Nat} {b : Bytes}
    (get : (snap.delta.space pos).terms[j]? = some b) :
    snap.decodeValue (Col.dict (snap.base.overlayBase pos + j)) pos = some b := by
  have fits := sound.wf.fits
  have missing := fits.fresh pos b (List.mem_of_getElem? get)
  have resolved : snap.resolveCol b pos = some (Col.dict (snap.base.overlayBase pos + j)) := by
    have overlay : snap.delta.resolve b pos = some (Col.dict (snap.base.overlayBase pos + j)) :=
      (overlay_resolve_iff fits).mpr ⟨rfl, by simp, by simpa using get⟩
    simp only [resolveCol, Segment.resolveColumn, missing, overlay]
  rw [(decodeValue_of_resolveCol sound.wf.dict fits resolved).2,
    Dictionary.namedAt_of_missing missing]

/-- What a value of a clean snapshot decodes to may stand in its position. -/
theorem taken_of_decodeValue (clean : snap.delta.Clean) {v : Col} {pos : TermPos} {b : Bytes}
    (valid : snap.ValidCol v pos) (decoded : snap.decodeValue v pos = some b) : TakenAt b pos := by
  have overlay {w : Col} (h : snap.delta.decode w pos = some b) : TakenAt b pos := by
    simp only [Delta.decode, OverlaySpace.decode] at h
    split at h
    · exact clean pos b (List.mem_of_getElem? h)
    · cases h
  cases pos with
  | subject =>
      simp only [decodeValue] at decoded
      split at decoded
      · exact sound.accepted.subject _ _ decoded
      · exact overlay decoded
  | predicate =>
      simp only [decodeValue] at decoded
      split at decoded
      · exact sound.accepted.predicate _ _ decoded
      · exact overlay decoded
  | graph =>
      simp only [decodeValue] at decoded
      split at decoded
      · cases decoded
      · split at decoded
        · exact sound.accepted.graph _ _ decoded
        · exact overlay decoded
  | object =>
      simp only [decodeValue] at decoded
      split at decoded
      · exact overlay decoded
      · rename_i low
        obtain ⟨t, term, rfl⟩ := Option.map_eq_some_iff.mp decoded
        have inBase : snap.base.dict.Valid v .object := by
          rcases valid with ⟨tag, bound⟩ | ⟨tag, bound⟩ | inline
          · refine Or.inl ⟨tag, ?_⟩
            rw [not_and, not_le] at low
            exact (Col.lt_dict_iff.mp (low tag)).2
          · exact Or.inr (Or.inl ⟨tag, bound⟩)
          · exact Or.inr (Or.inr inline)
        exact ⟨t, sound.accepted.object v inBase t term, rfl⟩

end Snapshot

/-! ## Taking triple terms apart -/

omit [InlineCodec] in
/-- What the term decoder's varint reader accepts reads the same without its bound on the
last byte. -/
theorem readVarintFrom_of_readFrom {v i : Nat} {l : Bytes} {r : Nat × Nat}
    (h : Varint.readFrom v i l = some r) : readVarintFrom v i l = some r := by
  induction l generalizing v i with
  | nil => cases h
  | cons b rest ih =>
      simp only [Varint.readFrom] at h
      simp only [readVarintFrom]
      by_cases long : 10 ≤ i
      · rw [if_pos long] at h
        cases h
      · rw [if_neg long] at h ⊢
        have small : b.toNat % 128 < 128 := Nat.mod_lt _ (by omega)
        by_cases last : b.toNat < 128
        · rw [if_pos last] at h ⊢
          by_cases over_ : i = 9 ∧ 1 < b.toNat
          · rw [if_pos over_] at h
            cases h
          · rw [if_neg over_] at h
            have fits : b.toNat % 128 * 2 ^ (7 * i) < 2 ^ 64 := by
              by_cases nine : i = 9
              · have : b.toNat ≤ 1 := by omega
                subst nine
                omega
              · calc b.toNat % 128 * 2 ^ (7 * i) ≤ b.toNat % 128 * 2 ^ 56 :=
                      Nat.mul_le_mul_left _ (Nat.pow_le_pow_right (by omega) (by omega))
                  _ < 2 ^ 64 := by omega
            rw [Nat.mod_eq_of_lt fits]
            exact h
        · rw [if_neg last] at h ⊢
          have early : i ≤ 8 := by
            by_contra late
            have : i + 1 = 10 := by omega
            rw [this] at h
            cases rest <;> cases h
          have fits : b.toNat % 128 * 2 ^ (7 * i) < 2 ^ 64 := by
            calc b.toNat % 128 * 2 ^ (7 * i) ≤ b.toNat % 128 * 2 ^ 56 :=
                  Nat.mul_le_mul_left _ (Nat.pow_le_pow_right (by omega) (by omega))
              _ < 2 ^ 64 := by omega
          rw [Nat.mod_eq_of_lt fits]
          exact ih h

omit [InlineCodec] in
theorem splitTtPart_of_splitPart {payload part rest : Bytes}
    (h : Concise.splitPart payload = some (part, rest)) : splitTtPart payload = .ok (part, rest) := by
  simp only [Concise.splitPart] at h
  cases read : Varint.read payload with
  | none =>
      rw [read] at h
      cases h
  | some r =>
      obtain ⟨len, n⟩ := r
      simp only [read] at h
      simp only [splitTtPart, readVarint, readVarintFrom_of_readFrom read]
      by_cases short : (payload.drop n).length < len
      · rw [if_pos short] at h
        cases h
      · rw [if_neg short] at h ⊢
        cases h
        rfl

omit [InlineCodec] in
theorem splitTripleTerm_of_components {dec : Bytes → Except TermError TermRef}
    {payload s p o : Bytes} (parts : Concise.Components dec payload s p o) :
    splitTripleTerm (0x09 :: payload) = .ok (s, p, o) := by
  obtain ⟨afterS, afterP, splitS, splitP, splitO⟩ := parts.parts
  simp only [splitTripleTerm, splitTtPart_of_splitPart splitS, bind, Except.bind,
    splitTtPart_of_splitPart splitP, splitTtPart_of_splitPart splitO, ne_eq, not_true_eq_false,
    if_false]
  rfl

omit [InlineCodec] in
theorem acceptedNode_of_decodeAt {levels : Nat} (le : levels ≤ Concise.maxTripleTermDepth)
    {b : Bytes} (h : ∃ t, Concise.decodeAt levels b = .ok t ∧ Concise.checkPosition 0 t = .ok ()) :
    Dictionary.AcceptedNode b true := by
  obtain ⟨t, decoded, node⟩ := h
  have whole : Concise.decode b = .ok t := Concise.decodeAt_le (by omega) decoded
  cases t with
  | iri iri => exact Or.inl ⟨iri, whole⟩
  | blankNode label => exact Or.inr ⟨rfl, label, whole⟩
  | simple | lang | datatyped | tripleTerm => cases node

omit [InlineCodec] in
theorem acceptedIri_of_decodeAt {levels : Nat} (le : levels ≤ Concise.maxTripleTermDepth)
    {b : Bytes} (h : ∃ t, Concise.decodeAt levels b = .ok t ∧ Concise.checkPosition 1 t = .ok ()) :
    Dictionary.AcceptedNode b false := by
  obtain ⟨t, decoded, node⟩ := h
  have whole : Concise.decode b = .ok t := Concise.decodeAt_le (by omega) decoded
  cases t with
  | iri iri => exact Or.inl ⟨iri, whole⟩
  | blankNode | simple | lang | datatyped | tripleTerm => cases node

omit [InlineCodec] in
theorem get_of_idxOf? {α : Type} [BEq α] [LawfulBEq α] {l : List α} {a : α} {i : Nat}
    (h : l.idxOf? a = some i) : l[i]? = some a := by
  rw [List.idxOf?, List.findIdx?_eq_some_iff_getElem] at h
  obtain ⟨bound, found, -⟩ := h
  rw [List.getElem?_eq_getElem bound]
  simpa using found

omit [InlineCodec] in
theorem get_of_prefix {α : Type} {l l' : List α} (h : l <+: l') {i : Nat} {a : α}
    (get : l[i]? = some a) : l'[i]? = some a := by
  obtain ⟨rest, rfl⟩ := h
  rw [List.getElem?_append_left (List.getElem?_eq_some_iff.mp get).1]
  exact get

omit [InlineCodec] in
theorem addExtra_spec (l : List Bytes) (b : Bytes) : l <+: (addExtra l b).1 ∧
    (addExtra l b).1[(addExtra l b).2]? = some b ∧ ∀ x ∈ (addExtra l b).1, x ∈ l ∨ x = b := by
  simp only [addExtra]
  cases found : l.idxOf? b with
  | some i => exact ⟨List.prefix_refl l, get_of_idxOf? found, fun x mem => Or.inl mem⟩
  | none => exact ⟨List.prefix_append l [b], by simp, fun x mem => by simpa using mem⟩

namespace OverlayTts

/-- The overlay triple term at a position, with what its components stand for. -/
structure Part (st : OverlayTts) (j : Nat) (b : Bytes) (parts : TtParts) (s p : Bytes)
    (o : Term) : Prop where
  read : Term.read b = some (.tripleTerm s p o)
  spelled : (Term.tripleTerm s p o).bytes = b
  s : ∃ i, parts.s = .extra i ∧ st.extraSubj[i]? = some s
  p : ∃ i, parts.p = .extra i ∧ st.extraPred[i]? = some p
  o : match parts.o with
    | .extra i => o = .atom o.bytes ∧ st.extraObj[i]? = some o.bytes
    | .inline c => o = .atom o.bytes ∧ tryInline o.bytes = some c
    | .inner i => i < j ∧ (st.tts.map Prod.fst)[i]? = some o.bytes ∧ Term.read o.bytes = some o

/-- Every triple term is taken apart, and every component may stand in its place. -/
structure Inv (st : OverlayTts) : Prop where
  part : ∀ j b parts, st.tts[j]? = some (b, parts) → ∃ s p o, st.Part j b parts s p o
  extraSubj : ∀ b ∈ st.extraSubj, Dictionary.AcceptedNode b true
  extraPred : ∀ b ∈ st.extraPred, Dictionary.AcceptedNode b false
  extraObj : ∀ b ∈ st.extraObj, Term.read b = some (.atom b) ∧ tryInline b = none

/-- Taking more triple terms apart appends. -/
structure Grows (st st' : OverlayTts) : Prop where
  extraSubj : st.extraSubj <+: st'.extraSubj
  extraPred : st.extraPred <+: st'.extraPred
  extraObj : st.extraObj <+: st'.extraObj
  tts : st.tts <+: st'.tts

omit [InlineCodec] in
theorem Grows.refl (st : OverlayTts) : Grows st st :=
  ⟨List.prefix_refl _, List.prefix_refl _, List.prefix_refl _, List.prefix_refl _⟩

omit [InlineCodec] in
theorem Grows.trans {a b c : OverlayTts} (h : Grows a b) (h' : Grows b c) : Grows a c :=
  ⟨h.extraSubj.trans h'.extraSubj, h.extraPred.trans h'.extraPred,
    h.extraObj.trans h'.extraObj, h.tts.trans h'.tts⟩

omit [InlineCodec] in
theorem Grows.names {st st' : OverlayTts} (h : Grows st st') :
    st.tts.map Prod.fst <+: st'.tts.map Prod.fst := h.tts.map Prod.fst

theorem Part.grows {st st' : OverlayTts} (h : Grows st st') {j : Nat} {b : Bytes}
    {parts : TtParts} {s p : Bytes} {o : Term} (part : st.Part j b parts s p o) :
    st'.Part j b parts s p o where
  read := part.read
  spelled := part.spelled
  s := by
    obtain ⟨i, eq, get⟩ := part.s
    exact ⟨i, eq, get_of_prefix h.extraSubj get⟩
  p := by
    obtain ⟨i, eq, get⟩ := part.p
    exact ⟨i, eq, get_of_prefix h.extraPred get⟩
  o := by
    have old := part.o
    cases eq : parts.o with
    | extra i =>
        rw [eq] at old
        exact ⟨old.1, get_of_prefix h.extraObj old.2⟩
    | inline c =>
        rw [eq] at old
        exact old
    | inner i =>
        rw [eq] at old
        exact ⟨old.1, get_of_prefix h.names old.2.1, old.2.2⟩

theorem inv_empty : empty.Inv where
  part := by simp [empty]
  extraSubj := by simp [empty]
  extraPred := by simp [empty]
  extraObj := by simp [empty]

theorem Inv.extras {st : OverlayTts} (inv : st.Inv) {s p : Bytes}
    (subject : Dictionary.AcceptedNode s true) (predicate : Dictionary.AcceptedNode p false) :
    Inv { st with
      extraSubj := (addExtra st.extraSubj s).1, extraPred := (addExtra st.extraPred p).1 } ∧
    Grows st { st with
      extraSubj := (addExtra st.extraSubj s).1, extraPred := (addExtra st.extraPred p).1 } := by
  obtain ⟨growS, -, memS⟩ := addExtra_spec st.extraSubj s
  obtain ⟨growP, -, memP⟩ := addExtra_spec st.extraPred p
  have grows : Grows st { st with
      extraSubj := (addExtra st.extraSubj s).1, extraPred := (addExtra st.extraPred p).1 } :=
    ⟨growS, growP, List.prefix_refl _, List.prefix_refl _⟩
  refine ⟨⟨fun j b parts get => ?_, fun b mem => ?_, fun b mem => ?_, inv.extraObj⟩, grows⟩
  · obtain ⟨s, p, o, part⟩ := inv.part j b parts get
    exact ⟨s, p, o, part.grows grows⟩
  · rcases memS b mem with old | rfl
    · exact inv.extraSubj b old
    · exact subject
  · rcases memP b mem with old | rfl
    · exact inv.extraPred b old
    · exact predicate

theorem Inv.extraObject {st : OverlayTts} (inv : st.Inv) {b : Bytes}
    (read : Term.read b = some (.atom b)) (plain : tryInline b = none) :
    Inv { st with extraObj := (addExtra st.extraObj b).1 } ∧
      Grows st { st with extraObj := (addExtra st.extraObj b).1 } := by
  obtain ⟨growO, -, memO⟩ := addExtra_spec st.extraObj b
  have grows : Grows st { st with extraObj := (addExtra st.extraObj b).1 } :=
    ⟨List.prefix_refl _, List.prefix_refl _, growO, List.prefix_refl _⟩
  refine ⟨⟨fun j b parts get => ?_, inv.extraSubj, inv.extraPred, fun x mem => ?_⟩, grows⟩
  · obtain ⟨s, p, o, part⟩ := inv.part j b parts get
    exact ⟨s, p, o, part.grows grows⟩
  · rcases memO x mem with old | rfl
    · exact inv.extraObj x old
    · exact ⟨read, plain⟩

/-- A triple term with its parts in place joins the list. -/
theorem Inv.push {st : OverlayTts} (inv : st.Inv) {b : Bytes} {parts : TtParts} {s p : Bytes}
    {o : Term} (part : st.Part st.tts.length b parts s p o) :
    (st.push b parts).1.Inv ∧ Grows st (st.push b parts).1 ∧
      ((st.push b parts).1.tts.map Prod.fst)[(st.push b parts).2]? = some b := by
  have grows : Grows st (st.push b parts).1 :=
    ⟨List.prefix_refl _, List.prefix_refl _, List.prefix_refl _, List.prefix_append _ _⟩
  refine ⟨⟨fun j b' parts' get => ?_, inv.extraSubj, inv.extraPred, inv.extraObj⟩, grows,
    by simp [OverlayTts.push]⟩
  simp only [OverlayTts.push] at get
  rcases lt_or_ge j st.tts.length with old | new
  · rw [List.getElem?_append_left old] at get
    obtain ⟨s, p, o, part⟩ := inv.part j b' parts' get
    exact ⟨s, p, o, part.grows grows⟩
  · rw [List.getElem?_append_right new] at get
    have here : j - st.tts.length = 0 := by
      have := (List.getElem?_eq_some_iff.mp get).1
      simp only [List.length_singleton] at this
      omega
    rw [here] at get
    cases get
    obtain rfl : j = st.tts.length := by omega
    exact ⟨s, p, o, part.grows grows⟩

/-- Taking a triple term apart, as the encoder spells it, gives its position. -/
theorem splitTt_spec {fuel : Nat} {b : Bytes} {st st' : OverlayTts} {i : Nat} (inv : st.Inv)
    (canonical : Term.Canonical b) (triple : b.head? = some 0x09)
    (run : splitTt fuel b st = .ok (st', i)) :
    st'.Inv ∧ Grows st st' ∧ (st'.tts.map Prod.fst)[i]? = some b := by
  induction fuel generalizing b st st' i with
  | zero => cases run
  | succ fuel ih =>
      rw [splitTt] at run
      cases found : (st.tts.map Prod.fst).idxOf? b with
      | some j =>
          simp only [found] at run
          cases run
          exact ⟨inv, Grows.refl st, get_of_idxOf? found⟩
      | none =>
          obtain ⟨t, read, spelled⟩ := canonical
          obtain ⟨s, p, o, rfl⟩ := Term.tripleTerm_of_read read triple
          obtain ⟨payload, eq, parts, inner⟩ := Term.components_of_spelled read spelled
          have split : splitTripleTerm b = .ok (s, p, o.bytes) := by
            rw [eq]
            exact splitTripleTerm_of_components parts
          obtain ⟨inv1, grows1⟩ := inv.extras
            (acceptedNode_of_decodeAt (Nat.le_refl _) parts.subject)
            (acceptedIri_of_decodeAt (Nat.le_refl _) parts.predicate)
          have getS := (addExtra_spec st.extraSubj s).2.1
          have getP := (addExtra_spec st.extraPred p).2.1
          generalize hst : ({ st with
            extraSubj := (addExtra st.extraSubj s).1
            extraPred := (addExtra st.extraPred p).1 } : OverlayTts) = st1 at inv1 grows1
          have getS1 : st1.extraSubj[(addExtra st.extraSubj s).2]? = some s := by
            rw [← hst]
            exact getS
          have getP1 : st1.extraPred[(addExtra st.extraPred p).2]? = some p := by
            rw [← hst]
            exact getP
          simp only [found, split, bind, Except.bind, hst] at run
          by_cases nested : o.bytes.head? = some 0x09
          · rw [if_pos nested] at run
            cases deeper : splitTt fuel o.bytes st1 with
            | error m =>
                rw [deeper] at run
                cases run
            | ok r =>
                obtain ⟨st2, j⟩ := r
                rw [deeper] at run
                obtain ⟨inv2, grows2, get⟩ := ih inv1 ⟨o, inner, rfl⟩ nested deeper
                have part : st2.Part st2.tts.length b ⟨.extra (addExtra st.extraSubj s).2,
                    .extra (addExtra st.extraPred p).2, .inner j⟩ s p o := by
                  refine ⟨read, spelled, ⟨_, rfl, get_of_prefix grows2.extraSubj getS1⟩,
                    ⟨_, rfl, get_of_prefix grows2.extraPred getP1⟩, ?_, get, inner⟩
                  simpa using (List.getElem?_eq_some_iff.mp get).1
                obtain ⟨inv3, grows3, here⟩ := inv2.push part
                cases run
                exact ⟨inv3, (grows1.trans grows2).trans grows3, here⟩
          · rw [if_neg nested] at run
            have plain := Term.atom_of_read inner nested
            cases inlined : tryInlineObject o.bytes with
            | error m =>
                rw [inlined] at run
                cases run
            | ok c =>
                rw [inlined] at run
                have value : tryInline o.bytes = c := by
                  simp only [tryInlineObject] at inlined
                  split at inlined
                  · cases inlined
                  · exact Except.ok.inj inlined
                cases c with
                | some c =>
                    have part : st1.Part st1.tts.length b ⟨.extra (addExtra st.extraSubj s).2,
                        .extra (addExtra st.extraPred p).2, .inline c⟩ s p o :=
                      ⟨read, spelled, ⟨_, rfl, getS1⟩, ⟨_, rfl, getP1⟩, plain, value⟩
                    obtain ⟨inv3, grows3, here⟩ := inv1.push part
                    cases run
                    exact ⟨inv3, grows1.trans grows3, here⟩
                | none =>
                    obtain ⟨inv2, grows2⟩ := inv1.extraObject
                      (inner.trans (congrArg some plain)) value
                    have getO := (addExtra_spec st1.extraObj o.bytes).2.1
                    have part : Part { st1 with extraObj := (addExtra st1.extraObj o.bytes).1 }
                        st1.tts.length b ⟨.extra (addExtra st.extraSubj s).2,
                          .extra (addExtra st.extraPred p).2,
                          .extra (addExtra st1.extraObj o.bytes).2⟩ s p o :=
                      ⟨read, spelled, ⟨_, rfl, getS1⟩, ⟨_, rfl, getP1⟩, plain, getO⟩
                    obtain ⟨inv3, grows3, here⟩ := inv2.push part
                    subst hst
                    cases run
                    exact ⟨inv3, (grows1.trans grows2).trans grows3, here⟩

end OverlayTts

namespace OverlayObjects

/-- The overlay objects sorted in so far. -/
structure Inv (done : List (Bytes × Nat)) (st : OverlayObjects) : Prop where
  plain : st.plain.Sublist done
  atoms : ∀ e ∈ st.plain, Term.read e.1 = some (.atom e.1)
  split : st.split.Inv
  tts : ∀ e ∈ st.tts, ∃ b, (b, e.1) ∈ done ∧ (st.split.tts.map Prod.fst)[e.2]? = some b

theorem Inv.take {usage : Usage} {done : List (Bytes × Nat)} {st st' : OverlayObjects}
    {e : Bytes × Nat} (inv : Inv done st) (canonical : Term.Canonical e.1)
    (run : st.take usage e = .ok st') : Inv (done ++ [e]) st' := by
  have older {b : Bytes} {n : Nat} (mem : (b, n) ∈ done) : (b, n) ∈ done ++ [e] :=
    List.mem_append_left _ mem
  simp only [OverlayObjects.take] at run
  by_cases unused : e.2 ∉ usage.obj
  · rw [if_pos unused] at run
    cases run
    refine ⟨inv.plain.trans (List.sublist_append_left _ _), inv.atoms, inv.split, fun x mem => ?_⟩
    obtain ⟨b, old, get⟩ := inv.tts x mem
    exact ⟨b, older old, get⟩
  · rw [if_neg unused] at run
    by_cases triple : e.1.head? = some 0x09
    · rw [if_pos triple] at run
      cases split : st.split.splitTt e.1.length e.1 with
      | error m =>
          rw [split] at run
          cases run
      | ok r =>
          obtain ⟨split', i⟩ := r
          rw [split] at run
          cases run
          obtain ⟨inv', grows, get⟩ := OverlayTts.splitTt_spec inv.split canonical triple split
          refine ⟨inv.plain.trans (List.sublist_append_left _ _), inv.atoms, inv',
            fun x mem => ?_⟩
          rcases List.mem_append.mp mem with old | new
          · obtain ⟨b, there, get⟩ := inv.tts x old
            exact ⟨b, older there, get_of_prefix grows.names get⟩
          · obtain rfl := List.mem_singleton.mp new
            exact ⟨e.1, List.mem_append_right _ (List.mem_singleton_self _), get⟩
    · rw [if_neg triple] at run
      cases run
      refine ⟨inv.plain.append (List.Sublist.refl _), fun x mem => ?_, inv.split, fun x mem => ?_⟩
      · rcases List.mem_append.mp mem with old | new
        · exact inv.atoms x old
        · obtain rfl := List.mem_singleton.mp new
          obtain ⟨t, read, -⟩ := canonical
          rw [read, Term.atom_of_read read triple]
      · obtain ⟨b, old, get⟩ := inv.tts x mem
        exact ⟨b, older old, get⟩

theorem Inv.foldlM {usage : Usage} {done : List (Bytes × Nat)} {st st' : OverlayObjects}
    (inv : Inv done st) (l : List (Bytes × Nat)) (canonical : ∀ e ∈ l, Term.Canonical e.1)
    (run : l.foldlM (OverlayObjects.take usage) st = .ok st') : Inv (done ++ l) st' := by
  induction l generalizing done st with
  | nil =>
      cases run
      rw [List.append_nil]
      exact inv
  | cons e l ih =>
      rw [List.foldlM_cons] at run
      cases first : st.take usage e with
      | error m =>
          rw [first] at run
          cases run
      | ok st1 =>
          rw [first] at run
          have inv1 := inv.take (canonical e List.mem_cons_self) first
          have rest := ih inv1 (fun x mem => canonical x (List.mem_cons_of_mem _ mem)) run
          rwa [List.append_assoc, List.singleton_append] at rest

theorem inv_start : Inv [] ⟨[], OverlayTts.empty, []⟩ where
  plain := List.Sublist.refl _
  atoms := by simp
  split := OverlayTts.inv_empty
  tts := by simp

end OverlayObjects

/-! ## Places -/

/-- The tables of the section merge. -/
inductive Table where
  | subj
  | pred
  | obj
  | graph
  | extraSubj
  | extraPred
  | extraObj
deriving DecidableEq

/-- Position whose space a table maps to. -/
def Table.pos : Table → TermPos
  | .subj | .extraSubj => .subject
  | .pred | .extraPred => .predicate
  | .obj | .extraObj => .object
  | .graph => .graph

/-- The tables an id of a source is noted in. -/
def SourceTag.targets (nShared : Nat) (m : SourceTag × Nat) : List (Table × Nat) :=
  match m.1 with
  | .shared => [(.subj, m.2), (.obj, m.2)]
  | .subjects => [(.subj, nShared + m.2)]
  | .objects => [(.obj, nShared + m.2)]
  | .predicates => [(.pred, m.2)]
  | .graphs => [(.graph, m.2)]
  | .ovSubj => [(.subj, m.2)]
  | .ovPred => [(.pred, m.2)]
  | .ovObj => [(.obj, m.2)]
  | .ovGraph => [(.graph, m.2 - 1)]
  | .extraSubj => [(.extraSubj, m.2)]
  | .extraPred => [(.extraPred, m.2)]
  | .extraObj => [(.extraObj, m.2)]

def Roles.has (r : Roles) : TermPos → Bool
  | .subject => r.s
  | .predicate => r.p
  | .object => r.o
  | .graph => r.g

def Placed.slot (placed : Placed) : TermPos → Option Slot
  | .subject => placed.s
  | .predicate => placed.p
  | .object => placed.o
  | .graph => placed.g

omit [InlineCodec] in
/-- A term takes a role only by an id that is noted in a table of that position. -/
theorem Roles.has_join {usage : Usage} {nShared : Nat} {r : Roles} {m : SourceTag × Nat}
    {pos : TermPos} (h : (r.join usage nShared m).has pos = true) :
    r.has pos = true ∨ ∃ e ∈ SourceTag.targets nShared m, e.1.pos = pos := by
  obtain ⟨tag, i⟩ := m
  cases tag <;> cases pos <;>
    simp only [Roles.join, Roles.has, SourceTag.targets, List.mem_cons, List.not_mem_nil, or_false,
      exists_eq_left, exists_eq_or_imp, Table.pos, reduceCtorEq, or_true] at h ⊢ <;>
    exact h

omit [InlineCodec] in
theorem Roles.has_foldl {usage : Usage} {nShared : Nat} {pos : TermPos}
    (l : List (SourceTag × Nat)) {r : Roles}
    (h : (l.foldl (Roles.join usage nShared) r).has pos = true) :
    r.has pos = true ∨ ∃ m ∈ l, ∃ e ∈ SourceTag.targets nShared m, e.1.pos = pos := by
  induction l generalizing r with
  | nil => exact Or.inl h
  | cons m l ih =>
      rcases ih h with here | ⟨m', mem, found⟩
      · exact (has_join here).imp_right fun found => ⟨m, List.mem_cons_self, found⟩
      · exact Or.inr ⟨m', List.mem_cons_of_mem _ mem, found⟩

namespace SectionMerge

def table (st : SectionMerge) : Table → Remap
  | .subj => st.rSubj
  | .pred => st.rPred
  | .obj => st.rObj
  | .graph => st.rGraph
  | .extraSubj => st.extraSubj
  | .extraPred => st.extraPred
  | .extraObj => st.extraObj

/-- The section a position begins with. -/
def whole (st : SectionMerge) : TermPos → List Bytes
  | .subject | .object => st.shared
  | .predicate => st.predicates
  | .graph => st.graphs

/-- The section of a position behind the shared one. -/
def own (st : SectionMerge) : TermPos → List Bytes
  | .subject => st.subjects
  | .object => st.objects
  | .predicate | .graph => []

/-- A slot of a position is at these bytes. -/
def Points (st : SectionMerge) (pos : TermPos) (b : Bytes) : Slot → Prop
  | .whole n => (st.whole pos)[n]? = some b
  | .own n => (st.own pos)[n]? = some b

omit [InlineCodec] in
theorem put_eq_some {t : Remap} {i j : Nat} {placed : Option Slot} {slot : Slot}
    (h : t.put i placed j = some slot) : t j = some slot ∨ j = i ∧ placed = some slot := by
  cases placed with
  | none => exact Or.inl h
  | some s =>
      simp only [Remap.put] at h
      by_cases same : j = i
      · subst same
        rw [Function.update_self] at h
        exact Or.inr ⟨rfl, h⟩
      · rw [Function.update_of_ne same] at h
        exact Or.inl h

omit [InlineCodec] in
/-- Giving an id its position leaves the sections alone and notes it in its tables. -/
theorem assign_spec (nShared : Nat) (placed : Placed) (st : SectionMerge) (m : SourceTag × Nat) :
    (∀ pos, (assign nShared placed st m).whole pos = st.whole pos ∧
      (assign nShared placed st m).own pos = st.own pos) ∧
    ∀ T i slot, (assign nShared placed st m).table T i = some slot →
      st.table T i = some slot ∨
        (T, i) ∈ SourceTag.targets nShared m ∧ placed.slot T.pos = some slot := by
  obtain ⟨tag, n⟩ := m
  constructor
  · intro pos
    cases tag <;> cases pos <;> exact ⟨rfl, rfl⟩
  · intro T i slot h
    have put {t : Remap} {j : Nat} {p : Option Slot} (h : t.put j p i = some slot)
        (mem : (T, j) ∈ SourceTag.targets nShared (tag, n)) (at_ : placed.slot T.pos = p) :
        t i = some slot ∨
          (T, i) ∈ SourceTag.targets nShared (tag, n) ∧ placed.slot T.pos = some slot := by
      rcases put_eq_some h with old | ⟨rfl, new⟩
      · exact Or.inl old
      · exact Or.inr ⟨mem, at_.trans new⟩
    cases tag <;> cases T <;>
      first
        | exact Or.inl h
        | exact put h (by simp [SourceTag.targets]) rfl

omit [InlineCodec] in
theorem points_prefix {st st' : SectionMerge} (whole : ∀ pos, st.whole pos <+: st'.whole pos)
    (own : ∀ pos, st.own pos <+: st'.own pos) {pos : TermPos} {b : Bytes} {slot : Slot}
    (h : st.Points pos b slot) : st'.Points pos b slot := by
  cases slot with
  | whole n => exact get_of_prefix (whole pos) h
  | own n => exact get_of_prefix (own pos) h

omit [InlineCodec] in
theorem points_same {st st' : SectionMerge}
    (same : ∀ pos, st'.whole pos = st.whole pos ∧ st'.own pos = st.own pos) {pos : TermPos}
    {b : Bytes} {slot : Slot} (h : st.Points pos b slot) : st'.Points pos b slot := by
  refine points_prefix (fun pos => ?_) (fun pos => ?_) h
  · rw [(same pos).1]
  · rw [(same pos).2]

/-- The terms of a section that has those with the given roles. -/
def keep (roles : Roles → Bool) (b : Bytes) (r : Roles) : List Bytes := if roles r then [b] else []

/-- A term is appended to the sections of its roles. -/
structure Emitted (st st' : SectionMerge) (b : Bytes) (r : Roles) : Prop where
  shared : st'.shared = st.shared ++ keep (fun r => r.s && r.o) b r
  subjects : st'.subjects = st.subjects ++ keep (fun r => r.s && !r.o) b r
  predicates : st'.predicates = st.predicates ++ keep (fun r => r.p) b r
  objects : st'.objects = st.objects ++ keep (fun r => !r.s && r.o) b r
  graphs : st'.graphs = st.graphs ++ keep (fun r => r.g) b r

omit [InlineCodec] in
theorem emit_spec (st : SectionMerge) (b : Bytes) (r : Roles) :
    Emitted st (st.emit b r).1 b r ∧ (∀ T, (st.emit b r).1.table T = st.table T) ∧
      ∀ pos slot, (st.emit b r).2.slot pos = some slot → (st.emit b r).1.Points pos b slot := by
  obtain ⟨s, p, o, g⟩ := r
  refine ⟨?_, fun T => ?_, fun pos slot h => ?_⟩
  · constructor <;> cases s <;> cases o <;> cases p <;> cases g <;> simp [emit, keep]
  · cases T <;> cases s <;> cases o <;> cases p <;> cases g <;> rfl
  · cases pos <;> cases s <;> cases o <;> cases p <;> cases g <;>
      first
        | (cases h; done)
        | (cases h
           simp [emit, Points, whole, own])

omit [InlineCodec] in
theorem assigns_spec (nShared : Nat) (placed : Placed) (l : List (SourceTag × Nat))
    (st : SectionMerge) :
    (∀ pos, (l.foldl (assign nShared placed) st).whole pos = st.whole pos ∧
      (l.foldl (assign nShared placed) st).own pos = st.own pos) ∧
    ∀ T i slot, (l.foldl (assign nShared placed) st).table T i = some slot →
      st.table T i = some slot ∨
        ∃ m ∈ l, (T, i) ∈ SourceTag.targets nShared m ∧ placed.slot T.pos = some slot := by
  induction l generalizing st with
  | nil => exact ⟨fun _ => ⟨rfl, rfl⟩, fun _ _ _ h => Or.inl h⟩
  | cons m l ih =>
      obtain ⟨same, noted⟩ := assign_spec nShared placed st m
      obtain ⟨same', noted'⟩ := ih (assign nShared placed st m)
      refine ⟨fun pos => ⟨(same' pos).1.trans (same pos).1, (same' pos).2.trans (same pos).2⟩,
        fun T i slot h => ?_⟩
      rcases noted' T i slot h with h | ⟨m', mem, found⟩
      · rcases noted T i slot h with h | found
        · exact Or.inl h
        · exact Or.inr ⟨m, List.mem_cons_self, found⟩
      · exact Or.inr ⟨m', List.mem_cons_of_mem _ mem, found⟩

/-- The roles of a group's term. -/
def groupRoles (usage : Usage) (nShared : Nat) (g : Bytes × List (SourceTag × Nat)) : Roles :=
  g.2.foldl (Roles.join usage nShared) ⟨false, false, false, false⟩

/-- The terms of the groups with some roles. -/
def picked (usage : Usage) (nShared : Nat) (roles : Roles → Bool)
    (groups : List (Bytes × List (SourceTag × Nat))) : List Bytes :=
  (groups.filter fun g => roles (groupRoles usage nShared g)).map Prod.fst

/-- The groups placed so far are in the sections of their roles, and every noted id is at its
old bytes. -/
structure Inv (usage : Usage) (nShared : Nat) (old : Table → Nat → Bytes → Prop)
    (done : List (Bytes × List (SourceTag × Nat))) (st : SectionMerge) : Prop where
  shared : st.shared = picked usage nShared (fun r => r.s && r.o) done
  subjects : st.subjects = picked usage nShared (fun r => r.s && !r.o) done
  predicates : st.predicates = picked usage nShared (fun r => r.p) done
  objects : st.objects = picked usage nShared (fun r => !r.s && r.o) done
  graphs : st.graphs = picked usage nShared (fun r => r.g) done
  tables : ∀ T i slot, st.table T i = some slot → ∃ b, old T i b ∧ st.Points T.pos b slot

section Picked

variable {usage : Usage} {nShared : Nat} {roles roles' : Roles → Bool}
  {groups : List (Bytes × List (SourceTag × Nat))}

omit [InlineCodec] in
theorem picked_concat (g : Bytes × List (SourceTag × Nat)) :
    picked usage nShared roles (groups ++ [g]) =
      picked usage nShared roles groups ++ keep roles g.1 (groupRoles usage nShared g) := by
  simp only [picked, keep, List.filter_append, List.map_append]
  congr 1
  rw [List.filter_singleton]
  cases roles (groupRoles usage nShared g) <;> rfl

omit [InlineCodec] in
theorem mem_picked {b : Bytes} (h : b ∈ picked usage nShared roles groups) :
    ∃ g ∈ groups, g.1 = b ∧ roles (groupRoles usage nShared g) = true := by
  obtain ⟨g, mem, rfl⟩ := List.mem_map.mp h
  obtain ⟨there, has⟩ := List.mem_filter.mp mem
  exact ⟨g, there, rfl, has⟩

variable (ascending : groups.Pairwise fun a b => a.1 < b.1)
include ascending

omit [InlineCodec] in
theorem sorted_picked : (picked usage nShared roles groups).Pairwise (· < ·) := by
  rw [picked, List.pairwise_map]
  exact ascending.sublist List.filter_sublist

omit [InlineCodec] in
/-- A term has one group. -/
theorem not_mem_picked (apart : ∀ r, roles r = true → roles' r = false) {b : Bytes}
    (h : b ∈ picked usage nShared roles groups) : b ∉ picked usage nShared roles' groups := by
  intro h'
  obtain ⟨g, mem, rfl, has⟩ := mem_picked h
  obtain ⟨g', mem', same, has'⟩ := mem_picked h'
  have nodup : (groups.map Prod.fst).Nodup := by
    rw [List.Nodup, List.pairwise_map]
    exact ascending.imp fun lt => ne_of_lt lt
  have one := List.inj_on_of_nodup_map nodup mem' mem same
  rw [one, apart _ has] at has'
  cases has'

end Picked

section Place

variable {usage : Usage} {nShared : Nat} {old : Table → Nat → Bytes → Prop}
  {done : List (Bytes × List (SourceTag × Nat))} {st : SectionMerge}

omit [InlineCodec] in
theorem inv_start : Inv usage nShared old [] start where
  shared := rfl
  subjects := rfl
  predicates := rfl
  objects := rfl
  graphs := rfl
  tables := by
    intro T i slot h
    cases T <;> cases h

omit [InlineCodec] in
/-- Placing a term whose ids are known by their old bytes. -/
theorem Inv.place (inv : Inv usage nShared old done st) {g : Bytes × List (SourceTag × Nat)}
    (known : ∀ m ∈ g.2, ∀ e ∈ SourceTag.targets nShared m, old e.1 e.2 g.1) :
    Inv usage nShared old (done ++ [g]) (st.place usage nShared g) := by
  obtain ⟨emitted, tables, placed⟩ := emit_spec st g.1 (groupRoles usage nShared g)
  obtain ⟨same, noted⟩ := assigns_spec nShared (st.emit g.1 (groupRoles usage nShared g)).2 g.2
    (st.emit g.1 (groupRoles usage nShared g)).1
  have whole (pos : TermPos) : st.whole pos <+: (st.place usage nShared g).whole pos := by
    have here : (st.place usage nShared g).whole pos = _ := (same pos).1
    rw [here]
    cases pos
    · exact ⟨_, emitted.shared.symm⟩
    · exact ⟨_, emitted.predicates.symm⟩
    · exact ⟨_, emitted.shared.symm⟩
    · exact ⟨_, emitted.graphs.symm⟩
  have own (pos : TermPos) : st.own pos <+: (st.place usage nShared g).own pos := by
    have here : (st.place usage nShared g).own pos = _ := (same pos).2
    rw [here]
    cases pos
    · exact ⟨_, emitted.subjects.symm⟩
    · exact List.prefix_refl _
    · exact ⟨_, emitted.objects.symm⟩
    · exact List.prefix_refl _
  constructor
  · refine (same .subject).1.trans ?_
    rw [picked_concat, ← inv.shared]
    exact emitted.shared
  · refine (same .subject).2.trans ?_
    rw [picked_concat, ← inv.subjects]
    exact emitted.subjects
  · refine (same .predicate).1.trans ?_
    rw [picked_concat, ← inv.predicates]
    exact emitted.predicates
  · refine (same .object).2.trans ?_
    rw [picked_concat, ← inv.objects]
    exact emitted.objects
  · refine (same .graph).1.trans ?_
    rw [picked_concat, ← inv.graphs]
    exact emitted.graphs
  · intro T i slot h
    rcases noted T i slot h with before | ⟨m, mem, target, here⟩
    · rw [tables] at before
      obtain ⟨b, known, points⟩ := inv.tables T i slot before
      exact ⟨b, known, points_prefix whole own points⟩
    · refine ⟨g.1, known m mem _ target, ?_⟩
      exact points_same same (placed _ _ here)

omit [InlineCodec] in
theorem Inv.foldl (inv : Inv usage nShared old done st)
    (groups : List (Bytes × List (SourceTag × Nat)))
    (known : ∀ g ∈ groups, ∀ m ∈ g.2, ∀ e ∈ SourceTag.targets nShared m, old e.1 e.2 g.1) :
    Inv usage nShared old (done ++ groups) (groups.foldl (SectionMerge.place usage nShared) st) := by
  induction groups generalizing done st with
  | nil =>
      rw [List.append_nil]
      exact inv
  | cons g groups ih =>
      have rest := ih (inv.place (known g List.mem_cons_self))
        fun g' mem => known g' (List.mem_cons_of_mem _ mem)
      rwa [List.append_assoc, List.singleton_append] at rest

end Place

end SectionMerge

/-! ## The merged sections -/

/-- Bytes that a section of a position takes: plain terms that are not carried inline. -/
def PlainAt (b : Bytes) (pos : TermPos) : Prop :=
  match pos with
  | .object => Term.read b = some (.atom b) ∧ tryInline b = none
  | pos => TakenAt b pos

omit [InlineCodec] in
theorem Dictionary.AcceptedNode.sigilKind {b : Bytes} {allowBlank : Bool}
    (h : AcceptedNode b allowBlank) : sigilKind b ≠ .literal ∧ (allowBlank = false → sigilKind b = .iri) := by
  rcases h with ⟨iri, decoded⟩ | ⟨blank, label, decoded⟩
  · obtain ⟨sig, rest, rfl, ⟨-, v, leaf, -, spelled⟩ | ⟨-, triple, -⟩⟩ :=
      Concise.decodeAt_cases decoded
    · cases leaf
      cases spelled
      have kind : Graphy.sigilKind (0x3E :: strBytes iri) = .iri := rfl
      exact ⟨fun literal => TermKind.noConfusion (kind.symm.trans literal), fun _ => kind⟩
    · cases triple
  · obtain ⟨sig, rest, rfl, ⟨-, v, leaf, -, spelled⟩ | ⟨-, triple, -⟩⟩ :=
      Concise.decodeAt_cases decoded
    · cases leaf
      cases spelled
      have kind : Graphy.sigilKind (0x5F :: strBytes label) = .blank := rfl
      exact ⟨fun literal => TermKind.noConfusion (kind.symm.trans literal),
        fun no => by rw [blank] at no; cases no⟩
    · cases triple

/-- The sections of a dictionary: ascending, apart, and with what their positions take. -/
structure Dictionary.Plain (d : Dictionary) : Prop extends d.Sorted where
  shared_subjects : ∀ b ∈ d.shared, b ∉ d.subjects
  shared_objects : ∀ b ∈ d.shared, b ∉ d.objects
  subjects_objects : ∀ b ∈ d.subjects, b ∉ d.objects
  subject : ∀ b, b ∈ d.shared ∨ b ∈ d.subjects → PlainAt b .subject
  predicate : ∀ b ∈ d.predicates, PlainAt b .predicate
  object : ∀ b, b ∈ d.shared ∨ b ∈ d.objects → PlainAt b .object
  graph : ∀ b ∈ d.graphs, PlainAt b .graph

/-- With valid records the dictionary is what the builders guarantee. -/
theorem Dictionary.Plain.wf {d : Dictionary} (plain : d.Plain) (nodup : d.ttRecords.Nodup)
    (valid : ∀ (i : Nat) (r : TripleKey), d.ttRecords[i]? = some r →
      d.Valid r.s .subject ∧ d.Valid r.p .predicate ∧ d.Valid r.o .object ∧
        (r.o.tag = 7 → r.o.payload < i)) : d.WF where
  shared_nodup := plain.shared.imp ne_of_lt
  subjects_nodup := plain.subjects.imp ne_of_lt
  predicates_nodup := plain.predicates.imp ne_of_lt
  objects_nodup := plain.objects.imp ne_of_lt
  graphs_nodup := plain.graphs.imp ne_of_lt
  shared_subjects := plain.shared_subjects
  shared_objects := plain.shared_objects
  subjects_objects := plain.subjects_objects
  shared_kind := fun b mem => (plain.subject b (Or.inl mem)).sigilKind.1
  subjects_kind := fun b mem => (plain.subject b (Or.inr mem)).sigilKind.1
  predicates_kind := fun b mem => (plain.predicate b mem).sigilKind.2 rfl
  graphs_kind := fun b mem => (plain.graph b mem).sigilKind.1
  objects_inline := fun b mem => (plain.object b (Or.inr mem)).2
  tt_nodup := nodup
  tt_valid := valid

/-- Bytes of a dictionary value of a position, triple terms and inline values apart. -/
def Dictionary.plainValue (d : Dictionary) (v : Col) : TermPos → Option Bytes
  | .subject => d.sectionValue d.subjects v
  | .predicate => d.predicateValue v
  | .object => d.sectionValue d.objects v
  | .graph => if v.tag = 0 then d.graphs[v.payload]? else none

namespace SectionMerge

/-- The sections with some records. -/
def dict (st : SectionMerge) (records : List TripleKey) : Dictionary :=
  ⟨st.shared, st.subjects, st.predicates, st.objects, st.graphs, records⟩

section Merged

variable {usage : Usage} {nShared : Nat} {old : Table → Nat → Bytes → Prop}
  {groups : List (Bytes × List (SourceTag × Nat))} {st : SectionMerge}

/-- A term with a role is one that its position takes. -/
theorem plainAt_of_picked (pos : TermPos) (taken : ∀ T i b, old T i b → PlainAt b T.pos)
    (known : ∀ g ∈ groups, ∀ m ∈ g.2, ∀ e ∈ SourceTag.targets nShared m, old e.1 e.2 g.1)
    {roles : Roles → Bool} (has : ∀ r, roles r = true → r.has pos = true)
    {b : Bytes} (mem : b ∈ picked usage nShared roles groups) : PlainAt b pos := by
  obtain ⟨g, there, rfl, role⟩ := mem_picked mem
  rcases Roles.has_foldl g.2 (has _ role) with none_ | ⟨m, inside, e, target, rfl⟩
  · cases pos <;> cases none_
  · exact taken _ _ _ (known g there m inside e target)

/-- The merged sections are what a dictionary needs. -/
theorem Inv.plain (inv : Inv usage nShared old groups st)
    (ascending : groups.Pairwise fun a b => a.1 < b.1)
    (taken : ∀ T i b, old T i b → PlainAt b T.pos)
    (known : ∀ g ∈ groups, ∀ m ∈ g.2, ∀ e ∈ SourceTag.targets nShared m, old e.1 e.2 g.1)
    (records : List TripleKey) : (st.dict records).Plain where
  shared := by simpa only [dict, inv.shared] using sorted_picked ascending
  subjects := by simpa only [dict, inv.subjects] using sorted_picked ascending
  predicates := by simpa only [dict, inv.predicates] using sorted_picked ascending
  objects := by simpa only [dict, inv.objects] using sorted_picked ascending
  graphs := by simpa only [dict, inv.graphs] using sorted_picked ascending
  shared_subjects := by
    intro b mem
    simp only [dict, inv.shared, inv.subjects] at mem ⊢
    exact not_mem_picked ascending (fun r h => by simp only [Bool.and_eq_true] at h; simp [h]) mem
  shared_objects := by
    intro b mem
    simp only [dict, inv.shared, inv.objects] at mem ⊢
    exact not_mem_picked ascending (fun r h => by simp only [Bool.and_eq_true] at h; simp [h]) mem
  subjects_objects := by
    intro b mem
    simp only [dict, inv.subjects, inv.objects] at mem ⊢
    exact not_mem_picked ascending (fun r h => by simp only [Bool.and_eq_true] at h; simp [h]) mem
  subject := by
    rintro b (mem | mem)
    · simp only [dict, inv.shared] at mem
      exact plainAt_of_picked .subject taken known
        (fun r h => by simp only [Bool.and_eq_true] at h; exact h.1) mem
    · simp only [dict, inv.subjects] at mem
      exact plainAt_of_picked .subject taken known
        (fun r h => by simp only [Bool.and_eq_true] at h; exact h.1) mem
  predicate := by
    intro b mem
    simp only [dict, inv.predicates] at mem
    exact plainAt_of_picked .predicate taken known (fun r h => h) mem
  object := by
    rintro b (mem | mem)
    · simp only [dict, inv.shared] at mem
      exact plainAt_of_picked .object taken known
        (fun r h => by simp only [Bool.and_eq_true] at h; exact h.2) mem
    · simp only [dict, inv.objects] at mem
      exact plainAt_of_picked .object taken known
        (fun r h => by simp only [Bool.and_eq_true] at h; exact h.2) mem
  graph := by
    intro b mem
    simp only [dict, inv.graphs] at mem
    exact plainAt_of_picked .graph taken known (fun r h => h) mem

end Merged

end SectionMerge

def SectionMaps.table (maps : SectionMaps) : Table → RemapCol
  | .subj => maps.rSubj
  | .pred => maps.rPred
  | .obj => maps.rObj
  | .graph => maps.rGraph
  | .extraSubj => maps.extraSubj
  | .extraPred => maps.extraPred
  | .extraObj => maps.extraObj

omit [InlineCodec] in
/-- A noted id has a value of its old bytes. -/
theorem SectionMerge.Inv.fixup {usage : Usage} {nShared : Nat} {old : Table → Nat → Bytes → Prop}
    {groups : List (Bytes × List (SourceTag × Nat))} {st : SectionMerge}
    (inv : Inv usage nShared old groups st) (records : List TripleKey) {T : Table} {i : Nat} {c : Col}
    (h : st.fixup.table T i = some c) :
    ∃ b, old T i b ∧ (st.dict records).plainValue c T.pos = some b := by
  have slot : ∃ slot, st.table T i = some slot ∧ c = Col.dict (slot.fix st.shared.length) := by
    cases T <;> (obtain ⟨slot, get, rfl⟩ := Option.map_eq_some_iff.mp h; exact ⟨slot, get, rfl⟩)
  obtain ⟨slot, get, rfl⟩ := slot
  obtain ⟨b, known, points⟩ := inv.tables T i slot get
  refine ⟨b, known, ?_⟩
  cases slot with
  | whole n =>
      have bound := (List.getElem?_eq_some_iff.mp points).1
      cases T <;>
        simp_all [Table.pos, Points, whole, Dictionary.plainValue, Dictionary.sectionValue,
          Dictionary.predicateValue, dict, Slot.fix]
  | own n =>
      cases T <;>
        simp_all [Table.pos, Points, own, Dictionary.plainValue, Dictionary.sectionValue, dict,
          Slot.fix]

/-! ## The ids of the old generation -/

/-- What an id of a table stood for. -/
def OldAt (snap : Snapshot) (split : OverlayTts) (b : Bytes) : Table → Nat → Prop
  | .subj, i => snap.decodeValue (Col.dict i) .subject = some b
  | .pred, i => snap.decodeValue (Col.dict i) .predicate = some b
  | .obj, i => snap.decodeValue (Col.dict i) .object = some b
  | .graph, i => snap.decodeValue (Col.dict (i + 1)) .graph = some b
  | .extraSubj, i => split.extraSubj[i]? = some b
  | .extraPred, i => split.extraPred[i]? = some b
  | .extraObj, i => split.extraObj[i]? = some b

/-- An id of a table stood for a plain term of its position. -/
def Old (snap : Snapshot) (split : OverlayTts) (T : Table) (i : Nat) (b : Bytes) : Prop :=
  OldAt snap split b T i ∧ PlainAt b T.pos

section Old

variable {snap : Snapshot} (sound : snap.Sound)
include sound

/-- Column value of a value of the dictionary. -/
def TermPos.column (pos : TermPos) (v : Col) : Col :=
  if pos = .graph then ⟨v.tag, v.payload + 1⟩ else v

/-- The snapshot decodes the plain values of its base. -/
theorem decodeValue_plainValue {v : Col} {pos : TermPos} {b : Bytes}
    (h : snap.base.dict.plainValue v pos = some b) :
    snap.decodeValue (pos.column v) pos = some b ∧ PlainAt b pos := by
  have wf := sound.wf.dict
  cases pos with
  | subject =>
      have bytes : snap.base.dict.decodeBytes v .subject = some b := by
        simp only [Dictionary.plainValue] at h
        simp [Dictionary.decodeBytes, Dictionary.decodeValue, h, Term.bytes]
      have low : v < Col.dict snap.base.dict.nSubjects :=
        Col.lt_dict_iff.mpr (Dictionary.sectionValue_valid h)
      exact ⟨(if_pos low).trans bytes, sound.accepted.subject v b bytes⟩
  | predicate =>
      have bytes : snap.base.dict.decodeBytes v .predicate = some b := by
        simp only [Dictionary.plainValue] at h
        simp [Dictionary.decodeBytes, Dictionary.decodeValue, h, Term.bytes]
      have low : v < Col.dict snap.base.dict.predicates.length := by
        simp only [Dictionary.plainValue, Dictionary.predicateValue] at h
        split at h
        · exact Col.lt_dict_iff.mpr ⟨‹_›, (List.getElem?_eq_some_iff.mp h).1⟩
        · cases h
      exact ⟨(if_pos low).trans bytes, sound.accepted.predicate v b bytes⟩
  | object =>
      have value : snap.base.dict.decodeValue v .object = some (.atom b) := by
        simp only [Dictionary.plainValue] at h
        have tag := (Dictionary.sectionValue_valid h).1
        unfold Dictionary.decodeValue Dictionary.decodeObject
        simp [tag, h]
      have valid : snap.base.dict.Valid v .object := Or.inl (Dictionary.sectionValue_valid h)
      have high : ¬ (v.tag = 0 ∧ Col.dict snap.base.dict.nObjects ≤ v) := by
        rintro ⟨-, le⟩
        exact absurd (Col.lt_dict_iff.mpr (Dictionary.sectionValue_valid h)) (not_lt.mpr le)
      have bytes : snap.base.dict.decodeBytes v .object = some b := by
        rw [Dictionary.decodeBytes, value]
        rfl
      exact ⟨(if_neg high).trans bytes, sound.accepted.object v valid _ value,
        wf.tryInline_of_objectValue h⟩
  | graph =>
      simp only [Dictionary.plainValue] at h
      split at h
      · rename_i tag
        have bytes : snap.base.dict.decodeBytes v .graph = some b := by
          simp [Dictionary.decodeBytes, Dictionary.decodeValue, tag, h, Term.bytes]
        have bound := (List.getElem?_eq_some_iff.mp h).1
        refine ⟨?_, sound.accepted.graph v b bytes⟩
        have nonzero : (⟨v.tag, v.payload + 1⟩ : Col) ≠ Col.dict 0 := by simp [Col.dict]
        have low : (⟨v.tag, v.payload + 1⟩ : Col) ≤ Col.dict snap.base.dict.graphs.length := by
          rw [tag]
          exact Col.dict_le_dict.mpr bound
        simp only [TermPos.column, if_true, Snapshot.decodeValue, nonzero, low, if_false]
        exact bytes
      · cases h

variable (clean : snap.delta.Clean)
include clean

/-- The overlay holds plain terms and triple terms. -/
theorem plainAt_of_overlay {pos : TermPos} {b : Bytes} (mem : b ∈ (snap.delta.space pos).terms)
    (plain : pos = .object → Term.read b = some (.atom b)) : PlainAt b pos := by
  have taken := clean pos b mem
  cases pos with
  | subject | predicate | graph => exact taken
  | object =>
      refine ⟨plain rfl, ?_⟩
      have missing := sound.wf.fits.fresh .object b mem
      simp only [Dictionary.resolveBytes, plain rfl, Option.bind_some,
        Dictionary.resolveObject] at missing
      cases inline : tryInline b with
      | none => rfl
      | some c => simp [inline] at missing

omit clean in
theorem mem_sortedOverlay {pos : TermPos} {e : Bytes × Nat} (h : e ∈ sortedOverlay snap pos) :
    ∃ j, (snap.delta.space pos).terms[j]? = some e.1 ∧ e.2 = snap.base.overlayBase pos + j := by
  simp only [sortedOverlay, List.mem_insertionSort, List.mem_map, Delta.overlayTerms,
    List.mem_mapIdx] at h
  obtain ⟨_, ⟨j, bound, rfl⟩, rfl⟩ := h
  refine ⟨j, List.getElem?_eq_getElem bound, ?_⟩
  rw [← sound.wf.fits.space_base pos]
  rfl

/-- An overlay entry stood for its bytes. -/
theorem old_of_sortedOverlay {pos : TermPos} {e : Bytes × Nat} (h : e ∈ sortedOverlay snap pos)
    (plain : pos = .object → Term.read e.1 = some (.atom e.1)) :
    snap.decodeValue (Col.dict e.2) pos = some e.1 ∧ PlainAt e.1 pos := by
  obtain ⟨j, get, eq⟩ := mem_sortedOverlay sound h
  rw [eq]
  exact ⟨Snapshot.decodeValue_overlay sound get,
    plainAt_of_overlay sound clean (List.mem_of_getElem? get) plain⟩

variable {usage : Usage} {objects : OverlayObjects}
  (inv : objects.Inv (sortedOverlay snap .object))
include inv

/-- Every id that a source lists stood for the bytes it is listed under. -/
theorem old_of_has {b : Bytes} {m : SourceTag × Nat} (has : (mergeSources snap usage objects).Has b m) :
    ∀ e ∈ SourceTag.targets snap.base.dict.shared.length m, Old snap objects.split e.1 e.2 b := by
  obtain ⟨tag, i⟩ := m
  obtain ⟨s, mem, rfl, entry⟩ := has
  -- a base value, by its section and position
  have base (v : Col) (pos : TermPos) (h : snap.base.dict.plainValue v pos = some b) :=
    decodeValue_plainValue sound h
  have extra {l : List Bytes} (h : (b, i) ∈ extraSource l) : l[i]? = some b := by
    simp only [extraSource, List.mem_insertionSort, List.mem_zipIdx_iff_getElem?] at h
    exact h
  simp only [mergeSources, List.mem_cons, List.not_mem_nil, or_false] at mem
  rcases mem with rfl | rfl | rfl | rfl | rfl | rfl | rfl | rfl | rfl | rfl | rfl | rfl <;>
    simp only [SourceTag.targets, List.mem_cons, List.not_mem_nil, or_false, forall_eq_or_imp,
      forall_eq]
  · have get : snap.base.dict.shared[i]? = some b := List.mem_zipIdx_iff_getElem?.mp entry
    have head (own : List Bytes) : snap.base.dict.sectionValue own (Col.dict i) = some b := by
      rw [Dictionary.sectionValue, if_pos (Col.dict_lt_dict.mpr (List.getElem?_eq_some_iff.mp get).1)]
      exact get
    exact ⟨base (Col.dict i) .subject (head _),
      base (Col.dict i) .object (head _)⟩
  · have get : snap.base.dict.subjects[i]? = some b := List.mem_zipIdx_iff_getElem?.mp entry
    exact base (Col.dict _) .subject (by
      simp [Dictionary.plainValue, Dictionary.sectionValue, get])
  · have get : snap.base.dict.predicates[i]? = some b := List.mem_zipIdx_iff_getElem?.mp entry
    exact base (Col.dict i) .predicate (by
      simp [Dictionary.plainValue, Dictionary.predicateValue, get])
  · have get : snap.base.dict.objects[i]? = some b := List.mem_zipIdx_iff_getElem?.mp entry
    exact base (Col.dict _) .object (by
      simp [Dictionary.plainValue, Dictionary.sectionValue, get])
  · have get : snap.base.dict.graphs[i]? = some b := List.mem_zipIdx_iff_getElem?.mp entry
    exact base (Col.dict i) .graph (by simp [Dictionary.plainValue, get])
  · exact old_of_sortedOverlay sound clean (List.mem_filter.mp entry).1 (by simp)
  · exact old_of_sortedOverlay sound clean (List.mem_filter.mp entry).1 (by simp)
  · exact old_of_sortedOverlay sound clean (inv.plain.mem entry) fun _ => inv.atoms _ entry
  · have listed := (List.mem_filter.mp entry).1
    obtain ⟨j, -, eq⟩ := mem_sortedOverlay sound listed
    simp only [Segment.overlayBase] at eq
    have ordinal : i - 1 + 1 = i := by omega
    have old := old_of_sortedOverlay sound clean listed (by simp)
    refine ⟨?_, old.2⟩
    simp only [OldAt, ordinal]
    exact old.1
  · have get := extra entry
    exact ⟨get, inv.split.extraSubj b (List.mem_of_getElem? get)⟩
  · have get := extra entry
    exact ⟨get, inv.split.extraPred b (List.mem_of_getElem? get)⟩
  · have get := extra entry
    exact ⟨get, inv.split.extraObj b (List.mem_of_getElem? get)⟩

omit sound clean in
theorem sorted_mergeSources (sorted : snap.base.dict.Sorted) :
    (mergeSources snap usage objects).Sorted := by
  have zip {l : List Bytes} (h : l.Pairwise (· < ·)) :
      l.zipIdx.Pairwise fun a b => a.1 ≤ b.1 := by
    have keys : l.zipIdx.map Prod.fst = l := List.zipIdx_map_fst 0 l
    rw [← keys] at h
    exact (List.pairwise_map.mp h).imp le_of_lt
  have lex {l : List (Bytes × Nat)} :
      (l.insertionSort fun a b => toLex a ≤ toLex b).Pairwise fun a b => a.1 ≤ b.1 :=
    (List.pairwise_insertionSort (fun a b : Bytes × Nat => toLex a ≤ toLex b) l).imp
      fun h => Prod.Lex.monotone_fst _ _ h
  have overlay (pos : TermPos) : (sortedOverlay snap pos).Pairwise fun a b => a.1 ≤ b.1 := lex
  intro s mem
  simp only [mergeSources, List.mem_cons, List.not_mem_nil, or_false] at mem
  rcases mem with rfl | rfl | rfl | rfl | rfl | rfl | rfl | rfl | rfl | rfl | rfl | rfl
  · exact zip sorted.shared
  · exact zip sorted.subjects
  · exact zip sorted.predicates
  · exact zip sorted.objects
  · exact zip sorted.graphs
  · exact (overlay .subject).sublist List.filter_sublist
  · exact (overlay .predicate).sublist List.filter_sublist
  · exact (overlay .object).sublist inv.plain
  · exact (overlay .graph).sublist List.filter_sublist
  · exact lex
  · exact lex
  · exact lex

variable (usage) in
/-- The merge of the sections places every group. -/
theorem sections_inv (sorted : snap.base.dict.Sorted) (fuel : Nat) :
    let groups := Sources.groups fuel (mergeSources snap usage objects)
    (groups.foldl (SectionMerge.place usage snap.base.dict.shared.length)
        SectionMerge.start).Inv usage snap.base.dict.shared.length (Old snap objects.split) groups ∧
      ∀ records, ((groups.foldl (SectionMerge.place usage snap.base.dict.shared.length)
        SectionMerge.start).dict records).Plain := by
  intro groups
  have known : ∀ g ∈ groups, ∀ m ∈ g.2,
      ∀ e ∈ SourceTag.targets snap.base.dict.shared.length m, Old snap objects.split e.1 e.2 g.1 :=
    fun g mem m inside => old_of_has sound clean inv (Sources.has_of_mem_groups mem m inside)
  have first : SectionMerge.Inv usage snap.base.dict.shared.length (Old snap objects.split) []
    SectionMerge.start := SectionMerge.inv_start
  have placed := first.foldl groups known
  rw [List.nil_append] at placed
  exact ⟨placed, placed.plain (Sources.ascending_groups (sorted_mergeSources inv sorted))
    (fun T i b old => old.2) known⟩

end Old

end Graphy
