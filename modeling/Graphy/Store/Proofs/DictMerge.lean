import Graphy.Store.Proofs.Compaction
import Graphy.Store.Proofs.MergeScan
import Graphy.Store.Proofs.Open
import Graphy.Store.Proofs.SectionMerge

/-!
# Merging the dictionary keeps the dataset

A triple term is canonicalized one depth after the other, so that its inner term has its new
value when it is due.  The merged dictionary is one the builders guarantee, and a quad with
new values is the quad it was.
-/

namespace Graphy

variable [InlineCodec]

/-! ## The closure of the usage -/

namespace Usage

omit [InlineCodec] in
theorem mem_markTriple {u : Usage} {t : TripleKey} {i : Nat} :
    i ∈ (u.markTriple t).tt ↔ i ∈ u.tt ∨ t.o.tag = 7 ∧ i = t.o.payload := by
  simp only [markTriple]
  split
  · rename_i tag
    simp [tag]
  · rename_i tag
    rw [Finset.mem_insert, or_comm]
    simp [tag]
  · rename_i other
    exact ⟨Or.inl, fun h => h.resolve_right fun found => other found.1⟩

omit [InlineCodec] in
theorem close_from {records : List TripleKey} {n : Nat} (u : Usage)
    (back : ∀ (i : Nat) (r : TripleKey), records[i]? = some r → r.o.tag = 7 → r.o.payload < n + i) :
    ∀ (i : Nat) (r : TripleKey), records[i]? = some r → r.o.tag = 7 →
      n + i ∈ ((records.zipIdx n).foldr
        (fun e u => if e.2 ∈ u.tt then u.markTriple e.1 else u) u).tt →
      r.o.payload ∈ ((records.zipIdx n).foldr
        (fun e u => if e.2 ∈ u.tt then u.markTriple e.1 else u) u).tt := by
  induction records generalizing n with
  | nil => simp
  | cons first rest ih =>
      have later := @ih (n + 1) fun i r get tag => by
        have := back (i + 1) r (by simpa using get) tag
        omega
      intro i r get tag used
      rw [List.zipIdx_cons, List.foldr_cons] at used ⊢
      generalize (rest.zipIdx (n + 1)).foldr
        (fun e u => if e.2 ∈ u.tt then u.markTriple e.1 else u) u = u1 at used later ⊢
      -- a record only marks one before it
      have before {j : Nat} (le : n ≤ j) (h : j ∈ (if n ∈ u1.tt then u1.markTriple first else u1).tt) :
          j ∈ u1.tt := by
        split at h
        · rcases mem_markTriple.mp h with old | ⟨tag, rfl⟩
          · exact old
          · have := back 0 first rfl tag
            omega
        · exact h
      have kept {j : Nat} (h : j ∈ u1.tt) :
          j ∈ (if n ∈ u1.tt then u1.markTriple first else u1).tt := by
        split
        · exact mem_markTriple.mpr (Or.inl h)
        · exact h
      cases i with
      | zero =>
          simp only [List.getElem?_cons_zero, Option.some.injEq] at get
          subst get
          have here := before (Nat.le_refl n) (by simpa using used)
          simp only [here, if_true]
          exact mem_markTriple.mpr (Or.inr ⟨tag, rfl⟩)
      | succ i =>
          have inner := later i r (by simpa using get) tag (by
            have := before (by omega) used
            rwa [show n + 1 + i = n + (i + 1) by omega])
          exact kept inner

omit [InlineCodec] in
/-- With a triple term its inner triple term is used. -/
theorem close_closed {records : List TripleKey} (u : Usage)
    (back : ∀ (i : Nat) (r : TripleKey), records[i]? = some r → r.o.tag = 7 → r.o.payload < i)
    {i : Nat} {r : TripleKey} (get : records[i]? = some r) (tag : r.o.tag = 7) (used : i ∈ (u.close records).tt) :
    r.o.payload ∈ (u.close records).tt := by
  have all := @close_from _ 0 u fun i r get tag => by
    have := back i r get tag
    omega
  exact all i r get tag (by simpa [close] using used)

end Usage

/-! ## Depths -/

omit [InlineCodec] in
/-- A list built by appending what its beginning determines. -/
theorem getElem?_foldl_concat {α β : Type} (f : List β → α → β) (l : List α) {i : Nat} {a : α}
    (get : l[i]? = some a) : (l.foldl (fun out a => out ++ [f out a]) [])[i]? =
      some (f ((l.foldl (fun out a => out ++ [f out a]) []).take i) a) := by
  have length (l : List α) : (l.foldl (fun out a => out ++ [f out a]) []).length = l.length := by
    induction l using List.reverseRecOn with
    | nil => rfl
    | append_singleton l a ih => simp [ih]
  induction l using List.reverseRecOn with
  | nil => cases get
  | append_singleton l b ih =>
      rw [List.foldl_append, List.foldl_cons, List.foldl_nil]
      rcases lt_trichotomy i l.length with lt | rfl | gt
      · rw [List.getElem?_append_left lt] at get
        rw [List.getElem?_append_left (by rw [length]; exact lt), ih get,
          List.take_append_of_le_length (by rw [length]; exact le_of_lt lt)]
      · rw [List.getElem?_append_right (Nat.le_refl _), Nat.sub_self] at get
        cases get
        have at_ := length l
        rw [List.getElem?_append_right (le_of_eq at_), List.take_append_of_le_length (le_of_eq at_.symm),
          List.take_of_length_le (le_of_eq at_)]
        simp [at_]
      · have := (List.getElem?_eq_some_iff.mp get).1
        simp only [List.length_append, List.length_singleton] at this
        omega

omit [InlineCodec] in
/-- Depth of a record whose inner record is before it. -/
theorem getElem?_recordDepths {records : List TripleKey} {i : Nat} {r : TripleKey}
    (get : records[i]? = some r) (back : r.o.tag = 7 → r.o.payload < i) :
    (recordDepths records)[i]? =
      some (if r.o.tag = 7 then ((recordDepths records)[r.o.payload]?).getD 0 + 1 else 1) := by
  have here := getElem?_foldl_concat (fun depths (r : TripleKey) =>
    if r.o.tag = 7 then (depths[r.o.payload]?).getD 0 + 1 else 1) records get
  refine here.trans (congrArg some ?_)
  by_cases tag : r.o.tag = 7
  · simp only [if_pos tag, List.getElem?_take_of_lt (back tag)]
    rfl
  · rw [if_neg tag, if_neg tag]

omit [InlineCodec] in
theorem getElem?_partsDepths {tts : List TtParts} {j : Nat} {parts : TtParts}
    (get : tts[j]? = some parts) (back : ∀ i, parts.o = .inner i → i < j) :
    (partsDepths tts)[j]? = some (match parts.o with
      | .inner i => ((partsDepths tts)[i]?).getD 0 + 1
      | _ => 1) := by
  have here := getElem?_foldl_concat (fun depths (parts : TtParts) => match parts.o with
    | .inner j => (depths[j]?).getD 0 + 1
    | _ => 1) tts get
  refine here.trans (congrArg some ?_)
  cases o : parts.o with
  | inner i =>
      simp only [List.getElem?_take_of_lt (back i o)]
      rfl
  | extra | inline => rfl

/-! ## Records and the terms they stand for -/

namespace Dictionary

/-- The dictionary with other records. -/
def withRecords (d : Dictionary) (records : List TripleKey) : Dictionary :=
  { d with ttRecords := records }

/-- A record has the values of the components of a triple term. -/
def RecordOf (d : Dictionary) (r : TripleKey) (t : Term) : Prop :=
  ∃ s p o, t = .tripleTerm s p o ∧ d.inSo d.subjects s = some r.s ∧
    (locate d.predicates p).map Col.dict = some r.p ∧ d.resolveObject o = some r.o

theorem resolve_of_recordOf {d : Dictionary} {r : TripleKey} {t : Term} (h : d.RecordOf r t) {i : Nat}
    (found : d.ttRecords.idxOf? r = some i) : d.resolveObject t = some (Col.tripleTerm i) := by
  obtain ⟨s, p, o, rfl, subject, predicate, object⟩ := h
  obtain ⟨j, there, eq⟩ := Option.map_eq_some_iff.mp predicate
  have whole : (⟨r.s, Col.dict j, r.o⟩ : TripleKey) = r := by rw [eq]
  simp only [resolveObject, subject, there, object, Option.bind_eq_bind, Option.bind_some, whole,
    found, Option.map_some]

/-- A term with a triple-term value has a record. -/
theorem record_of_resolve {d : Dictionary} {t : Term} {v : Col} (h : d.resolveObject t = some v)
    (tag : v.tag = 7) : ∃ r, d.ttRecords[v.payload]? = some r ∧ d.RecordOf r t := by
  cases t with
  | atom b =>
      simp only [resolveObject] at h
      cases inline : tryInline b with
      | some c =>
          rw [inline] at h
          cases h
          have := InlineCodec.tag_tryInline inline
          omega
      | none =>
          rw [inline] at h
          simp only [inSo] at h
          split at h
          · cases h
            cases tag
          · obtain ⟨i, -, rfl⟩ := Option.map_eq_some_iff.mp h
            cases tag
  | tripleTerm s p o =>
      simp only [resolveObject, Option.bind_eq_bind, Option.bind_eq_some_iff,
        Option.map_eq_some_iff] at h
      obtain ⟨sv, hs, pv, hp, ov, ho, i, hi, rfl⟩ := h
      exact ⟨_, get_of_idxOf? hi, s, p, o, rfl, hs, by rw [hp]; rfl, ho⟩

theorem atom_of_resolve {d : Dictionary} {t : Term} {v : Col} (h : d.resolveObject t = some v)
    (tag : v.tag ≠ 7) : ∃ b, t = .atom b := by
  cases t with
  | atom b => exact ⟨b, rfl⟩
  | tripleTerm s p o =>
      simp only [resolveObject, Option.bind_eq_bind, Option.bind_eq_some_iff,
        Option.map_eq_some_iff] at h
      obtain ⟨_, _, _, _, _, _, _, _, rfl⟩ := h
      exact absurd rfl tag

theorem WF.decodeObject_of {d : Dictionary} (wf : d.WF) {t : Term} {v : Col}
    (h : d.resolveObject t = some v) : d.decodeValue v .object = some t :=
  (wf.decodeValue_of_resolve (show d.resolveTerm t .object = some v from h)).2

theorem WF.resolveObject_inj {d : Dictionary} (wf : d.WF) {t t' : Term} {v : Col}
    (h : d.resolveObject t = some v) (h' : d.resolveObject t' = some v) : t = t' := by
  have left := wf.decodeObject_of h
  have right := wf.decodeObject_of h'
  exact Option.some.inj (left.symm.trans right)

omit [InlineCodec] in
theorem idxOf?_append {α : Type} [BEq α] [LawfulBEq α] {l : List α} {a : α} {i : Nat}
    (h : l.idxOf? a = some i) (more : List α) : (l ++ more).idxOf? a = some i := by
  rw [List.idxOf?, List.findIdx?_eq_some_iff_getElem] at h ⊢
  obtain ⟨bound, found, first⟩ := h
  refine ⟨by rw [List.length_append]; omega, ?_, fun j lt => ?_⟩
  · rw [List.getElem_append_left bound]
    exact found
  · rw [List.getElem_append_left (by omega)]
    exact first j lt

/-- What resolves does so with more records too. -/
theorem resolveObject_append {d : Dictionary} {t : Term} {v : Col} (h : d.resolveObject t = some v)
    (more : List TripleKey) :
    (d.withRecords (d.ttRecords ++ more)).resolveObject t = some v := by
  induction t generalizing v with
  | atom b => exact h
  | tripleTerm s p o ih =>
      simp only [resolveObject, Option.bind_eq_bind, Option.bind_eq_some_iff,
        Option.map_eq_some_iff] at h
      obtain ⟨sv, hs, pv, hp, ov, ho, i, hi, rfl⟩ := h
      have subject : (d.withRecords (d.ttRecords ++ more)).inSo d.subjects s = some sv := hs
      simp only [resolveObject, ih ho, Option.bind_eq_bind, Option.bind_eq_some_iff,
        Option.map_eq_some_iff]
      exact ⟨sv, subject, pv, hp, ov, rfl, i, idxOf?_append hi more, rfl⟩

theorem RecordOf.append {d : Dictionary} {r : TripleKey} {t : Term} (h : d.RecordOf r t)
    (more : List TripleKey) : (d.withRecords (d.ttRecords ++ more)).RecordOf r t := by
  obtain ⟨s, p, o, eq, subject, predicate, object⟩ := h
  exact ⟨s, p, o, eq, subject, predicate, resolveObject_append object more⟩

/-- A record's depth is that of its term. -/
theorem WF.recordDepths {d : Dictionary} (wf : d.WF) {t : Term} {i : Nat}
    (h : d.resolveObject t = some (Col.tripleTerm i)) :
    (Graphy.recordDepths d.ttRecords)[i]? = some t.depth := by
  induction t generalizing i with
  | atom b =>
      obtain ⟨r, -, _, _, _, eq, -⟩ := record_of_resolve h rfl
      cases eq
  | tripleTerm s p o ih =>
      obtain ⟨r, get, s', p', o', eq, -, -, object⟩ := record_of_resolve h rfl
      cases eq
      rw [Col.tripleTerm_payload] at get
      rw [getElem?_recordDepths get (wf.tt_valid _ r get).2.2.2]
      by_cases tag : r.o.tag = 7
      · rw [Col.eq_tripleTerm_of_tag tag] at object
        rw [if_pos tag, ih object]
        rfl
      · obtain ⟨b, rfl⟩ := atom_of_resolve object tag
        rw [if_neg tag]
        rfl

end Dictionary

namespace OverlayTts

/-- A triple term is taken apart at a position. -/
def At (split : OverlayTts) (j : Nat) (t : Term) : Prop :=
  ∃ b parts s p o, split.tts[j]? = some (b, parts) ∧ split.Part j b parts s p o ∧
    t = .tripleTerm s p o

omit [InlineCodec] in
theorem get_tts {split : OverlayTts} {j : Nat} {b : Bytes}
    (get : (split.tts.map Prod.fst)[j]? = some b) : ∃ parts, split.tts[j]? = some (b, parts) := by
  rw [List.getElem?_map] at get
  obtain ⟨⟨b', parts⟩, there, rfl⟩ := Option.map_eq_some_iff.mp get
  exact ⟨parts, there⟩

/-- The triple term at a position that has the bytes of a term is that term. -/
theorem Inv.at_of_read {split : OverlayTts} (inv : split.Inv) {j : Nat} {b : Bytes} {t : Term}
    (get : (split.tts.map Prod.fst)[j]? = some b) (read : Term.read b = some t) : split.At j t := by
  obtain ⟨parts, there⟩ := get_tts get
  obtain ⟨s, p, o, part⟩ := inv.part j b parts there
  exact ⟨b, parts, s, p, o, there, part, Option.some.inj (read.symm.trans part.read)⟩

theorem At.unique {split : OverlayTts} {j : Nat} {t t' : Term} (h : split.At j t)
    (h' : split.At j t') : t = t' := by
  obtain ⟨b, parts, s, p, o, get, part, rfl⟩ := h
  obtain ⟨b', parts', s', p', o', get', part', rfl⟩ := h'
  rw [get] at get'
  cases get'
  exact Option.some.inj (part.read.symm.trans part'.read)

/-- The depth of the parts is that of the triple term. -/
theorem Inv.partsDepths {split : OverlayTts} (inv : split.Inv) {j : Nat} {t : Term}
    (h : split.At j t) : (Graphy.partsDepths (split.tts.map Prod.snd))[j]? = some t.depth := by
  induction j using Nat.strong_induction_on generalizing t with
  | _ j ih =>
      obtain ⟨b, parts, s, p, o, get, part, rfl⟩ := h
      have snd : (split.tts.map Prod.snd)[j]? = some parts := by
        rw [List.getElem?_map, get]
        rfl
      have object := part.o
      rw [getElem?_partsDepths snd fun i eq => by rw [eq] at object; exact object.1]
      cases eq : parts.o with
      | inner i =>
          rw [eq] at object
          obtain ⟨lt, there, read⟩ := object
          simp only [ih i lt (inv.at_of_read there read)]
          rfl
      | extra i | inline c =>
          rw [eq] at object
          rw [object.1]
          rfl

end OverlayTts

/-! ## Triple terms, one depth after the other -/

/-- The tables of the sections give a term its value in the merged dictionary. -/
structure Carries (d : Dictionary) (split : OverlayTts) (maps : SectionMaps) (D : Dictionary) :
    Prop where
  subj : ∀ s v c, d.inSo d.subjects s = some v → maps.rSubj v.raw = some c →
    D.inSo D.subjects s = some c
  pred : ∀ p v c, (locate d.predicates p).map Col.dict = some v → maps.rPred v.raw = some c →
    (locate D.predicates p).map Col.dict = some c
  obj : ∀ b v c, d.inSo d.objects b = some v → maps.rObj v.raw = some c →
    D.inSo D.objects b = some c
  extraSubj : ∀ s i c, split.extraSubj[i]? = some s → maps.extraSubj i = some c →
    D.inSo D.subjects s = some c
  extraPred : ∀ p i c, split.extraPred[i]? = some p → maps.extraPred i = some c →
    (locate D.predicates p).map Col.dict = some c
  extraObj : ∀ b i c, split.extraObj[i]? = some b → maps.extraObj i = some c →
    D.inSo D.objects b = some c

/-- The records are of terms of at most a depth `k`, the tables give terms their values, and
they have all used ones of at most a depth `n`. -/
structure TtMerge.Inv (d : Dictionary) (split : OverlayTts) (usage : Usage) (D : Dictionary)
    (k n : Nat) (st : TtMerge) : Prop where
  nodup : st.records.Nodup
  valid : ∀ (i : Nat) (r : TripleKey), st.records[i]? = some r →
    D.Valid r.s .subject ∧ D.Valid r.p .predicate ∧
      (D.withRecords st.records).Valid r.o .object ∧ (r.o.tag = 7 → r.o.payload < i)
  record : ∀ (i : Nat) (r : TripleKey), st.records[i]? = some r → ∃ t, (D.withRecords st.records).RecordOf r t ∧
    Term.read t.bytes = some t ∧ t.depth ≤ k
  rTt : ∀ i c, st.rTt i = some c → ∃ t, d.resolveObject t = some (Col.tripleTerm i) ∧
    (D.withRecords st.records).resolveObject t = some c
  overlay : ∀ j c, st.overlay j = some c → ∃ t, split.At j t ∧
    (D.withRecords st.records).resolveObject t = some c
  rTt_all : ∀ i t, i ∈ usage.tt → d.resolveObject t = some (Col.tripleTerm i) → t.depth ≤ n →
    (st.rTt i).isSome = true
  overlay_all : ∀ j t, split.At j t → t.depth ≤ n → (st.overlay j).isSome = true

namespace TtMerge

theorem inv_start (d : Dictionary) (split : OverlayTts) (usage : Usage) (D : Dictionary) :
    Inv d split usage D 0 0 start where
  nodup := List.nodup_nil
  valid := by simp [start]
  record := by simp [start]
  rTt := by simp [start]
  overlay := by simp [start]
  rTt_all := by
    intro i t _ resolved flat
    obtain ⟨r, -, _, _, _, rfl, -⟩ := Dictionary.record_of_resolve resolved rfl
    simp [Term.depth] at flat
  overlay_all := by
    rintro j t ⟨_, _, _, _, _, _, _, rfl⟩ flat
    simp [Term.depth] at flat

omit [InlineCodec] in
theorem RemapCol.get_ok {t : RemapCol} {i : Nat} {what : String} {c : Col}
    (h : t.get i what = .ok c) : t i = some c := by
  simp only [RemapCol.get] at h
  split at h
  · cases h
    assumption
  · cases h

section Level

variable {d : Dictionary} {split : OverlayTts} {usage : Usage} {D : Dictionary} {k n : Nat}
  {maps : SectionMaps} {st : TtMerge} (former : d.WF) (plain : D.Plain) (parts : split.Inv)
  (carries : Carries d split maps D) (inv : Inv d split usage D k n st)
include plain inv

theorem Inv.wf : (D.withRecords st.records).WF := by
  refine Dictionary.Plain.wf ⟨⟨plain.shared, plain.subjects, plain.predicates, plain.objects,
    plain.graphs⟩, plain.shared_subjects, plain.shared_objects, plain.subjects_objects,
    plain.subject, plain.predicate, plain.object, plain.graph⟩ inv.nodup fun i r get => ?_
  obtain ⟨s, p, o, back⟩ := inv.valid i r get
  exact ⟨s, p, o, back⟩

include carries

omit plain in
include former in
/-- A used base record of the next depth, in the new id space. -/
theorem Inv.resolveRecord
    (closed : ∀ (i : Nat) (r : TripleKey), d.ttRecords[i]? = some r → r.o.tag = 7 →
      i ∈ usage.tt → r.o.payload ∈ usage.tt)
    {i : Nat} {r r' : TripleKey} {t : Term} (get : d.ttRecords[i]? = some r) (used : i ∈ usage.tt)
    (of : d.RecordOf r t) (depth : t.depth = n + 1) (run : st.resolveRecord maps r = .ok r') :
    (D.withRecords st.records).RecordOf r' t := by
  obtain ⟨s, p, o, rfl, subject, predicate, object⟩ := of
  simp only [TtMerge.resolveRecord, bind, Except.bind] at run
  cases hs : maps.rSubj.get r.s.raw "tt subject" with
  | error e =>
      rw [hs] at run
      cases run
  | ok cs =>
      simp only [hs] at run
      cases hp : maps.rPred.get r.p.raw "tt predicate" with
      | error e =>
          rw [hp] at run
          cases run
      | ok cp =>
          simp only [hp] at run
          have nodes := And.intro
            (carries.subj s _ cs subject (RemapCol.get_ok hs))
            (carries.pred p _ cp predicate (RemapCol.get_ok hp))
          split at run
          · -- a plain object of the base
            rename_i tag
            cases ho : maps.rObj.get r.o.raw "tt object" with
            | error e =>
                rw [ho] at run
                cases run
            | ok co =>
                rw [ho] at run
                cases run
                refine ⟨s, p, o, rfl, nodes.1, nodes.2, ?_⟩
                obtain ⟨b, rfl⟩ := Dictionary.atom_of_resolve object (by omega)
                simp only [Dictionary.resolveObject] at object ⊢
                cases inline : tryInline b with
                | some c =>
                    rw [inline] at object
                    have := InlineCodec.tag_tryInline (inline.trans object)
                    omega
                | none =>
                    rw [inline] at object
                    exact carries.obj b _ co object (RemapCol.get_ok ho)
          · -- an inner triple term, of one depth less
            rename_i tag
            cases run
            refine ⟨s, p, o, rfl, nodes.1, nodes.2, ?_⟩
            rw [Col.eq_tripleTerm_of_tag tag] at object
            have inner := inv.rTt_all _ o (closed i r get tag used) object (by
              simp only [Term.depth] at depth
              omega)
            obtain ⟨c, value⟩ := Option.isSome_iff_exists.mp inner
            obtain ⟨o', old, new⟩ := inv.rTt _ c value
            rw [value, former.resolveObject_inj object old]
            exact new
          · -- an inline value stays
            rename_i zero seven
            cases run
            refine ⟨s, p, o, rfl, nodes.1, nodes.2, ?_⟩
            obtain ⟨b, rfl⟩ := Dictionary.atom_of_resolve object seven
            simp only [Dictionary.resolveObject] at object ⊢
            cases inline : tryInline b with
            | some c =>
                rw [inline] at object
                exact object
            | none =>
                rw [inline] at object
                simp only [Dictionary.inSo] at object
                split at object
                · rw [← Option.some.inj object] at zero
                  exact absurd rfl zero
                · obtain ⟨j, -, eq⟩ := Option.map_eq_some_iff.mp object
                  rw [← eq] at zero
                  exact absurd rfl zero

omit plain in
include parts in
/-- An overlay triple term of the next depth, in the new id space. -/
theorem Inv.resolveParts {j : Nat} {ps : TtParts} {b : Bytes} {s p : Bytes} {o : Term}
    {r' : TripleKey} (part : split.Part j b ps s p o) (depth : o.depth = n)
    (run : st.resolveParts maps ps = .ok r') :
    (D.withRecords st.records).RecordOf r' (.tripleTerm s p o) := by
  obtain ⟨i, eqS, getS⟩ := part.s
  obtain ⟨i', eqP, getP⟩ := part.p
  simp only [TtMerge.resolveParts, eqS, eqP, resolveComp, bind, Except.bind] at run
  cases hs : maps.extraSubj.get i "tt component subject" with
  | error e =>
      rw [hs] at run
      cases run
  | ok cs =>
      simp only [hs] at run
      cases hp : maps.extraPred.get i' "tt component predicate" with
      | error e =>
          rw [hp] at run
          cases run
      | ok cp =>
          simp only [hp] at run
          have nodes := And.intro
            (carries.extraSubj s _ cs getS (RemapCol.get_ok hs))
            (carries.extraPred p _ cp getP (RemapCol.get_ok hp))
          have object := part.o
          cases shape : ps.o with
          | extra n =>
              rw [shape] at object
              simp only [shape] at run
              cases ho : maps.extraObj.get n "tt component object" with
              | error e =>
                  rw [ho] at run
                  cases run
              | ok co =>
                  rw [ho] at run
                  cases run
                  refine ⟨s, p, o, rfl, nodes.1, nodes.2, ?_⟩
                  have value := carries.extraObj _ n co object.2 (RemapCol.get_ok ho)
                  have bare := (parts.extraObj _ (List.mem_of_getElem? object.2)).2
                  rw [object.1]
                  simp only [Dictionary.resolveObject, bare]
                  exact value
          | inline c =>
              rw [shape] at object
              simp only [shape] at run
              cases run
              refine ⟨s, p, o, rfl, nodes.1, nodes.2, ?_⟩
              rw [object.1]
              simp only [Dictionary.resolveObject, object.2]
          | inner n =>
              rw [shape] at object
              simp only [shape] at run
              cases run
              refine ⟨s, p, o, rfl, nodes.1, nodes.2, ?_⟩
              have there := parts.at_of_read object.2.1 object.2.2
              obtain ⟨c, value⟩ := Option.isSome_iff_exists.mp
                (inv.overlay_all n o there (le_of_eq depth))
              obtain ⟨o', old, new⟩ := inv.overlay n c value
              rw [value, there.unique old]
              exact new

end Level

end TtMerge

omit [InlineCodec] in
theorem forall₂_mapM {ε α β : Type} {f : α → Except ε β} {l : List α} {bs : List β}
    (h : l.mapM f = .ok bs) : List.Forall₂ (fun a b => f a = .ok b) l bs := by
  induction l generalizing bs with
  | nil =>
      cases h
      exact .nil
  | cons a l ih =>
      rw [List.mapM_cons] at h
      cases first : f a with
      | error e =>
          rw [first] at h
          cases h
      | ok b =>
          cases rest : l.mapM f with
          | error e =>
              rw [first, rest] at h
              cases h
          | ok bs' =>
              rw [first, rest] at h
              cases h
              exact .cons first (ih rest)

/-- The triple term that an entry of a level stands for: that of a base record or of the
overlay. -/
def TtEntry.Of (d : Dictionary) (split : OverlayTts) (e : TtEntry) (t : Term) : Prop :=
  if e.overlay then split.At e.index t else d.resolveObject t = some (Col.tripleTerm e.index)

theorem TtEntry.of_base {d : Dictionary} {split : OverlayTts} {r : TripleKey} {i : Nat} {t : Term} :
    TtEntry.Of d split ⟨r, false, i⟩ t ↔ d.resolveObject t = some (Col.tripleTerm i) := by
  simp [TtEntry.Of]

theorem TtEntry.of_overlay {d : Dictionary} {split : OverlayTts} {r : TripleKey} {j : Nat}
    {t : Term} : TtEntry.Of d split ⟨r, true, j⟩ t ↔ split.At j t := by
  simp [TtEntry.Of]

/-- An entry whose record stands for its triple term, one deeper than what is settled. -/
def TtEntry.Due (d : Dictionary) (split : OverlayTts) (D : Dictionary) (k : Nat) (e : TtEntry) :
    Prop :=
  ∃ t, e.Of d split t ∧ D.RecordOf e.record t ∧ t.depth = k + 1 ∧ Term.read t.bytes = some t

namespace TtMerge

section Level

variable {d : Dictionary} {split : OverlayTts} {usage : Usage} {D : Dictionary} {k n : Nat}
  {maps : SectionMaps} {st : TtMerge} (former : d.WF) (parts : split.Inv)
  (carries : Carries d split maps D) (inv : Inv d split usage D k n st)
include former parts carries inv

/-- A level has an entry for every used triple term of its depth. -/
theorem Inv.level
    (closed : ∀ (i : Nat) (r : TripleKey), d.ttRecords[i]? = some r → r.o.tag = 7 →
      i ∈ usage.tt → r.o.payload ∈ usage.tt)
    (readable : ∀ i t, d.resolveObject t = some (Col.tripleTerm i) → Term.read t.bytes = some t)
    {entries : List TtEntry}
    (run : st.level maps usage d.ttRecords (split.tts.map Prod.snd) (n + 1) = .ok entries) :
    (∀ e ∈ entries, e.Due d split (D.withRecords st.records) n) ∧
    (∀ i t, i ∈ usage.tt → d.resolveObject t = some (Col.tripleTerm i) → t.depth = n + 1 →
      ∃ e ∈ entries, e.overlay = false ∧ e.index = i) ∧
    ∀ j t, split.At j t → t.depth = n + 1 → ∃ e ∈ entries, e.overlay = true ∧ e.index = j := by
  simp only [TtMerge.level, bind, Except.bind] at run
  split at run
  · cases run
  · rename_i fromBase oldRun
    split at run
    · cases run
    · rename_i fromOverlay newRun
      cases run
      -- what an entry is from, by where it is
      have old : List.Forall₂ (fun (a : TripleKey × Nat) (e : TtEntry) => ∃ r', st.resolveRecord maps a.1 = .ok r' ∧
          e = ⟨r', false, a.2⟩) _ fromBase := (forall₂_mapM oldRun).imp fun a e h => by
        split at h
        · cases h
        · rename_i r' resolved
          cases h
          exact ⟨r', resolved, rfl⟩
      have new : List.Forall₂ (fun (a : TtParts × Nat) (e : TtEntry) => ∃ r', st.resolveParts maps a.1 = .ok r' ∧
          e = ⟨r', true, a.2⟩) _ fromOverlay := (forall₂_mapM newRun).imp fun a e h => by
        split at h
        · cases h
        · rename_i r' resolved
          cases h
          exact ⟨r', resolved, rfl⟩
      refine ⟨fun e mem => ?_, fun i t used resolved deep => ?_, fun j t there deep => ?_⟩
      · rcases List.mem_append.mp mem with mem | mem
        · obtain ⟨⟨r, i⟩, there, r', resolved, rfl⟩ := exists_related old.flip mem
          obtain ⟨listed, due⟩ := List.mem_filter.mp there
          simp only [Bool.and_eq_true, decide_eq_true_eq] at due
          have get := List.mem_zipIdx_iff_getElem?.mp listed
          have bound := (List.getElem?_eq_some_iff.mp get).1
          obtain ⟨t, -, back⟩ := former.resolve_of_valid
            (show d.Valid (Col.tripleTerm i) .object from Or.inr (Or.inl ⟨rfl, bound⟩))
          obtain ⟨r2, get2, of⟩ := Dictionary.record_of_resolve back rfl
          rw [Col.tripleTerm_payload, get] at get2
          obtain rfl := Option.some.inj get2
          have depth : t.depth = n + 1 :=
            Option.some.inj ((former.recordDepths back).symm.trans due.1)
          exact ⟨t, TtEntry.of_base.mpr back, inv.resolveRecord former carries closed get due.2 of depth resolved,
            depth, readable i t back⟩
        · obtain ⟨⟨ps, j⟩, there, r', resolved, rfl⟩ := exists_related new.flip mem
          obtain ⟨listed, due⟩ := List.mem_filter.mp there
          simp only [decide_eq_true_eq] at due
          have get := List.mem_zipIdx_iff_getElem?.mp listed
          rw [List.getElem?_map] at get
          obtain ⟨⟨b, ps'⟩, entry, rfl⟩ := Option.map_eq_some_iff.mp get
          obtain ⟨s, p, o, part⟩ := parts.part j b ps' entry
          have at_ : split.At j (.tripleTerm s p o) := ⟨b, ps', s, p, o, entry, part, rfl⟩
          have depth : (Term.tripleTerm s p o).depth = n + 1 :=
            Option.some.inj ((parts.partsDepths at_).symm.trans due)
          refine ⟨_, TtEntry.of_overlay.mpr at_, inv.resolveParts parts carries part (Nat.succ.inj depth) resolved, depth, ?_⟩
          rw [part.spelled]
          exact part.read
      · obtain ⟨r, get, of⟩ := Dictionary.record_of_resolve resolved rfl
        have listed : (r, i) ∈ d.ttRecords.zipIdx.filter fun e =>
            decide ((recordDepths d.ttRecords)[e.2]? = some (n + 1)) && decide (e.2 ∈ usage.tt) :=
          List.mem_filter.mpr ⟨List.mem_zipIdx_iff_getElem?.mpr get, by
            simp [former.recordDepths resolved, deep, used]⟩
        obtain ⟨e, mem, r', -, rfl⟩ := exists_related old listed
        exact ⟨_, List.mem_append_left _ mem, rfl, rfl⟩
      · have at_ := there
        obtain ⟨b, ps, s, p, o, get, part, rfl⟩ := there
        have listed : (ps, j) ∈ (split.tts.map Prod.snd).zipIdx.filter fun e =>
            decide ((partsDepths (split.tts.map Prod.snd))[e.2]? = some (n + 1)) :=
          List.mem_filter.mpr ⟨List.mem_zipIdx_iff_getElem?.mpr (by
            rw [List.getElem?_map, get]
            rfl), by simp [parts.partsDepths at_, deep]⟩
        obtain ⟨e, mem, r', -, rfl⟩ := exists_related new listed
        exact ⟨_, List.mem_append_right _ mem, rfl, rfl⟩

end Level

end TtMerge

namespace TtMerge

section Settle

variable {d : Dictionary} {split : OverlayTts} {usage : Usage} {D : Dictionary} {k n : Nat}
  {st : TtMerge}

theorem Inv.mono {k' : Nat} (le : k ≤ k') (inv : Inv d split usage D k n st) :
    Inv d split usage D k' n st :=
  { inv with
    record := fun i r get => by
      obtain ⟨t, of, read, depth⟩ := inv.record i r get
      exact ⟨t, of, read, depth.trans le⟩ }

/-- A new record of a triple term joins the table. -/
theorem Inv.push (plain : D.Plain) (inv : Inv d split usage D k n st) {r : TripleKey} {t : Term}
    (of : (D.withRecords st.records).RecordOf r t) (read : Term.read t.bytes = some t)
    (depth : t.depth ≤ k) (new : r ∉ st.records) :
    Inv d split usage D k n { st with records := st.records ++ [r] } where
  nodup := List.nodup_append.mpr ⟨inv.nodup, List.nodup_singleton r, by
    rintro a mem b last rfl
    exact new (List.mem_singleton.mp last ▸ mem)⟩
  valid := by
    have later {c : Col} (valid : (D.withRecords st.records).Valid c .object) :
        (D.withRecords (st.records ++ [r])).Valid c .object := by
      rcases valid with atom | ⟨tag, bound⟩ | inline
      · exact Or.inl atom
      · refine Or.inr (Or.inl ⟨tag, ?_⟩)
        simp only [Dictionary.withRecords, List.length_append] at bound ⊢
        omega
      · exact Or.inr (Or.inr inline)
    intro i r' get
    rcases lt_or_ge i st.records.length with old | last
    · rw [List.getElem?_append_left old] at get
      obtain ⟨s, p, o, back⟩ := inv.valid i r' get
      exact ⟨s, p, later o, back⟩
    · rw [List.getElem?_append_right last] at get
      obtain ⟨rfl, at_⟩ : r' = r ∧ i = st.records.length := by
        have := (List.getElem?_eq_some_iff.mp get).1
        simp only [List.length_singleton] at this
        have here : i - st.records.length = 0 := by omega
        rw [here] at get
        exact ⟨(Option.some.inj get).symm, by omega⟩
      have wf := inv.wf plain
      obtain ⟨s, p, o, -, subject, predicate, object⟩ := of
      have valid := wf.resolveObject_valid object
      refine ⟨(wf.decodeValue_of_resolve
          (show (D.withRecords st.records).resolveTerm (.atom s) .subject = some r'.s from subject)).1,
        (wf.decodeValue_of_resolve
          (show (D.withRecords st.records).resolveTerm (.atom p) .predicate = some r'.p
            from predicate)).1, later valid, fun tag => ?_⟩
      rcases valid with ⟨zero, -⟩ | ⟨-, bound⟩ | ⟨b, inline⟩
      · omega
      · rw [at_]
        exact bound
      · have := InlineCodec.tag_tryInline inline
        omega
  record := by
    intro i r' get
    rcases lt_or_ge i st.records.length with old | last
    · rw [List.getElem?_append_left old] at get
      obtain ⟨t', of', read', depth'⟩ := inv.record i r' get
      exact ⟨t', of'.append [r], read', depth'⟩
    · rw [List.getElem?_append_right last] at get
      obtain rfl := List.mem_singleton.mp (List.mem_of_getElem? get)
      exact ⟨t, of.append [r'], read, depth⟩
  rTt := by
    intro i c value
    obtain ⟨t', old, new'⟩ := inv.rTt i c value
    exact ⟨t', old, Dictionary.resolveObject_append new' [r]⟩
  overlay := by
    intro j c value
    obtain ⟨t', old, new'⟩ := inv.overlay j c value
    exact ⟨t', old, Dictionary.resolveObject_append new' [r]⟩
  rTt_all := inv.rTt_all
  overlay_all := inv.overlay_all

/-- The value of an entry. -/
def value (st : TtMerge) (e : TtEntry) : Option Col :=
  if e.overlay then st.overlay e.index else st.rTt e.index

/-- Give an entry its value. -/
def assign (st : TtMerge) (e : TtEntry) (c : Col) : TtMerge :=
  if e.overlay then { st with overlay := Function.update st.overlay e.index (some c) }
  else { st with rTt := Function.update st.rTt e.index (some c) }

omit [InlineCodec] in
theorem isSome_update {t : RemapCol} {i j : Nat} {c : Col} (h : j = i ∨ (t j).isSome = true) :
    (Function.update t i (some c) j).isSome = true := by
  by_cases same : j = i
  · rw [same, Function.update_self]
    rfl
  · rw [Function.update_of_ne same]
    exact h.resolve_left same

omit [InlineCodec] in
theorem value_assign (st : TtMerge) (e : TtEntry) (c : Col) {e' : TtEntry}
    (h : e' = e ∨ (st.value e').isSome = true) : ((st.assign e c).value e').isSome = true := by
  obtain ⟨r, overlay, i⟩ := e
  obtain ⟨r', overlay', i'⟩ := e'
  cases overlay <;> cases overlay' <;> simp only [assign, value, if_true, if_false, Bool.false_eq_true,
    TtEntry.mk.injEq, reduceCtorEq, false_and, and_false, false_or, true_and] at h ⊢
  · exact isSome_update (h.imp_left And.right)
  · exact h
  · exact h
  · exact isSome_update (h.imp_left And.right)

/-- An entry gets the value of its triple term. -/
theorem Inv.assign (inv : Inv d split usage D k n st) {e : TtEntry} {t : Term} {c : Col}
    (of : e.Of d split t) (resolved : (D.withRecords st.records).resolveObject t = some c) :
    Inv d split usage D k n (st.assign e c) := by
  obtain ⟨r, overlay, i⟩ := e
  have kept (e' : TtEntry) (h : (st.value e').isSome = true) :=
    value_assign st ⟨r, overlay, i⟩ c (Or.inr h)
  cases overlay with
  | false =>
      refine ⟨inv.nodup, inv.valid, inv.record, fun j c' get => ?_, inv.overlay,
        fun j t' used old depth => kept ⟨r, false, j⟩ (inv.rTt_all j t' used old depth),
        inv.overlay_all⟩
      simp only [TtMerge.assign, Bool.false_eq_true, if_false] at get
      by_cases same : j = i
      · rw [same, Function.update_self] at get
        cases get
        exact ⟨t, same ▸ TtEntry.of_base.mp of, resolved⟩
      · rw [Function.update_of_ne same] at get
        exact inv.rTt j c' get
  | true =>
      refine ⟨inv.nodup, inv.valid, inv.record, inv.rTt, fun j c' get => ?_, inv.rTt_all,
        fun j t' there depth => kept ⟨r, true, j⟩ (inv.overlay_all j t' there depth)⟩
      simp only [TtMerge.assign, if_true] at get
      by_cases same : j = i
      · rw [same, Function.update_self] at get
        cases get
        exact ⟨t, same ▸ TtEntry.of_overlay.mp of, resolved⟩
      · rw [Function.update_of_ne same] at get
        exact inv.overlay j c' get

omit [InlineCodec] in
/-- Settling an entry adds its record unless the last one equals it, and gives the entry the
value of the last record. -/
theorem settle_eq (st : TtMerge) (last : Option TripleKey) (e : TtEntry) :
    settle (st, last) e =
      let records := if last = some e.record then st.records else st.records ++ [e.record]
      (assign { st with records := records } e (Col.tripleTerm (records.length - 1)),
        some e.record) := by
  simp only [settle, assign]

/-- A level on its way: behind the records before it the ascending ones of the entries settled
so far, each of which has a value. -/
structure Filling (d : Dictionary) (split : OverlayTts) (usage : Usage) (D : Dictionary) (k n : Nat)
    (before : List TripleKey) (done : List TtEntry) (acc : TtMerge × Option TripleKey) : Prop where
  inv : Inv d split usage D k n acc.1
  records : ∃ added, acc.1.records = before ++ added ∧ acc.2 = added.getLast? ∧
    ∀ r ∈ added, ∀ l, acc.2 = some l → Order.spo.toXyz r ≤ Order.spo.toXyz l
  last : ∀ l, acc.2 = some l → ∃ e ∈ done, e.record = l
  valued : ∀ e ∈ done, (acc.1.value e).isSome = true

theorem Filling.settle (plain : D.Plain) {before : List TripleKey} {done : List TtEntry}
    {acc : TtMerge × Option TripleKey} (filling : Filling d split usage D (n + 1) n before done acc)
    (shallow : ∀ r ∈ before, ∃ t, (D.withRecords before).RecordOf r t ∧ t.depth ≤ n)
    (wf : (D.withRecords before).WF) {e : TtEntry} (due : e.Due d split (D.withRecords before) n)
    (ascending : ∀ e' ∈ done, Order.spo.toXyz e'.record ≤ Order.spo.toXyz e.record) :
    Filling d split usage D (n + 1) n before (done ++ [e]) (TtMerge.settle acc e) := by
  obtain ⟨m, last⟩ := acc
  obtain ⟨added, records, lastEq, below⟩ := filling.records
  obtain ⟨t, of, record, depth, read⟩ := due
  simp only at records lastEq below
  have here : (D.withRecords m.records).RecordOf e.record t := by
    rw [records]
    exact record.append added
  rw [settle_eq]
  -- the records with that of the entry at their end
  have settled : ∃ added', (if last = some e.record then m.records else m.records ++ [e.record]) =
        before ++ added' ∧ some e.record = added'.getLast? ∧
      (∀ r ∈ added', Order.spo.toXyz r ≤ Order.spo.toXyz e.record) ∧
      Inv d split usage D (n + 1) n { m with
        records := (if last = some e.record then m.records else m.records ++ [e.record]) } := by
    by_cases same : last = some e.record
    · simp only [if_pos same]
      exact ⟨added, records, same.symm.trans lastEq, fun r mem => below r mem _ same, filling.inv⟩
    · simp only [if_neg same]
      have le (r : TripleKey) (mem : r ∈ added) : ∃ l, last = some l ∧
          Order.spo.toXyz r ≤ Order.spo.toXyz l ∧ Order.spo.toXyz l ≤ Order.spo.toXyz e.record := by
        obtain ⟨l, atEnd⟩ := Option.isSome_iff_exists.mp
          (List.getLast?_isSome.mpr (List.ne_nil_of_mem mem))
        have eq := lastEq.trans atEnd
        obtain ⟨e', there, rfl⟩ := filling.last l eq
        exact ⟨_, eq, below r mem _ eq, ascending e' there⟩
      have new : e.record ∉ m.records := by
        rw [records]
        intro mem
        rcases List.mem_append.mp mem with old | mem
        · -- an old record is of a term of a lower depth
          obtain ⟨t', record', depth'⟩ := shallow _ old
          obtain ⟨i, found⟩ := Option.isSome_iff_exists.mp (List.isSome_idxOf?.mpr old)
          have resolved := Dictionary.resolve_of_recordOf record found
          have resolved' := Dictionary.resolve_of_recordOf record' found
          rw [wf.resolveObject_inj resolved resolved'] at depth
          omega
        · obtain ⟨l, eq, low, high⟩ := le _ mem
          have whole := Order.spo_toXyz_injective (le_antisymm low high)
          exact same (by rw [eq, whole])
      refine ⟨added ++ [e.record], by rw [records, List.append_assoc], by simp, fun r mem => ?_,
        filling.inv.push plain here read (le_of_eq depth) new⟩
      rcases List.mem_append.mp mem with mem | mem
      · obtain ⟨l, -, low, high⟩ := le r mem
        exact low.trans high
      · rw [List.mem_singleton.mp mem]
  generalize (if last = some e.record then m.records else m.records ++ [e.record]) = R at settled
  obtain ⟨added', eq, atEnd, low, inv⟩ := settled
  have found : R.idxOf? e.record = some (R.length - 1) := by
    rw [idxOf?_eq_some_iff inv.nodup, ← List.getLast?_eq_getElem?, eq,
      List.getLast?_append, ← atEnd]
    rfl
  have resolved : (D.withRecords R).resolveObject t = some (Col.tripleTerm (R.length - 1)) := by
    refine Dictionary.resolve_of_recordOf ?_ found
    rw [eq]
    exact record.append added'
  have inv' := inv.assign of resolved
  have sameRecords (c : Col) : (TtMerge.assign { m with records := R } e c).records = R := by
    simp only [TtMerge.assign]
    split <;> rfl
  refine ⟨inv', ⟨added', (sameRecords _).trans eq, atEnd, ?_⟩, ?_, ?_⟩
  · rintro r mem l eq
    cases eq
    exact low r mem
  · rintro l eq
    cases eq
    exact ⟨e, List.mem_append_right _ (List.mem_singleton_self e), rfl⟩
  · intro e' mem
    refine value_assign _ e _ ?_
    rcases List.mem_append.mp mem with old | last
    · exact Or.inr (filling.valued e' old)
    · exact Or.inl (List.mem_singleton.mp last)

end Settle

end TtMerge

namespace TtMerge

section Levels

variable {d : Dictionary} {split : OverlayTts} {usage : Usage} {D : Dictionary} {n : Nat}
  {maps : SectionMaps} (former : d.WF) (parts : split.Inv) (carries : Carries d split maps D)
  (plain : D.Plain)

include plain in
theorem Filling.foldl {before : List TripleKey} {done l : List TtEntry}
    {acc : TtMerge × Option TripleKey} (filling : Filling d split usage D (n + 1) n before done acc)
    (shallow : ∀ r ∈ before, ∃ t, (D.withRecords before).RecordOf r t ∧ t.depth ≤ n)
    (wf : (D.withRecords before).WF) (due : ∀ e ∈ l, e.Due d split (D.withRecords before) n)
    (ascending : (done ++ l).Pairwise fun a b =>
      Order.spo.toXyz a.record ≤ Order.spo.toXyz b.record) :
    Filling d split usage D (n + 1) n before (done ++ l) (l.foldl TtMerge.settle acc) := by
  induction l generalizing done acc with
  | nil =>
      rw [List.append_nil]
      exact filling
  | cons e l ih =>
      have first := filling.settle plain shallow wf (due e List.mem_cons_self) fun e' mem =>
        (List.pairwise_append.mp ascending).2.2 e' mem e List.mem_cons_self
      have rest := ih first (fun e' mem => due e' (List.mem_cons_of_mem _ mem)) (by
        rwa [List.append_assoc, List.singleton_append])
      rwa [List.append_assoc, List.singleton_append] at rest

include former parts carries plain

/-- A level settles the triple terms of the next depth. -/
theorem Inv.addLevel
    (closed : ∀ (i : Nat) (r : TripleKey), d.ttRecords[i]? = some r → r.o.tag = 7 →
      i ∈ usage.tt → r.o.payload ∈ usage.tt)
    (readable : ∀ i t, d.resolveObject t = some (Col.tripleTerm i) → Term.read t.bytes = some t)
    {st st' : TtMerge} (inv : Inv d split usage D n n st)
    (run : TtMerge.addLevel maps usage d.ttRecords (split.tts.map Prod.snd) st (n + 1) = .ok st') :
    Inv d split usage D (n + 1) (n + 1) st' := by
  simp only [TtMerge.addLevel, bind, Except.bind] at run
  cases level : st.level maps usage d.ttRecords (split.tts.map Prod.snd) (n + 1) with
  | error e =>
      rw [level] at run
      cases run
  | ok entries =>
      rw [level] at run
      cases run
      obtain ⟨due, base, overlay⟩ := inv.level former parts carries closed readable level
      have first : Filling d split usage D (n + 1) n st.records [] (st, none) :=
        ⟨inv.mono (Nat.le_succ n), ⟨[], by simp, rfl, by simp⟩, by simp, by simp⟩
      have sorted : (entries.insertionSort fun a b => a.key ≤ b.key).Pairwise fun a b =>
          Order.spo.toXyz a.record ≤ Order.spo.toXyz b.record :=
        (List.pairwise_insertionSort (fun a b : TtEntry => a.key ≤ b.key) entries).imp
          fun h => Prod.Lex.monotone_fst _ _ h
      have filling := first.foldl plain
        (fun r mem => by
          obtain ⟨i, get⟩ := List.mem_iff_getElem?.mp mem
          obtain ⟨t, of, -, depth⟩ := inv.record i r get
          exact ⟨t, of, depth⟩)
        (inv.wf plain) (fun e mem => due e ((List.mem_insertionSort _).mp mem)) sorted
      rw [List.nil_append] at filling
      have valued {e : TtEntry} (mem : e ∈ entries) :=
        filling.valued e ((List.mem_insertionSort _).mpr mem)
      refine { filling.inv with rTt_all := fun i t used old depth => ?_,
                                overlay_all := fun j t there depth => ?_ }
      · rcases Nat.le_succ_iff.mp depth with before | here
        · exact filling.inv.rTt_all i t used old before
        · obtain ⟨⟨r, _, _⟩, mem, rfl, rfl⟩ := base i t used old here
          exact valued mem
      · rcases Nat.le_succ_iff.mp depth with before | here
        · exact filling.inv.overlay_all j t there before
        · obtain ⟨⟨r, _, _⟩, mem, rfl, rfl⟩ := overlay j t there here
          exact valued mem

theorem Inv.addLevels
    (closed : ∀ (i : Nat) (r : TripleKey), d.ttRecords[i]? = some r → r.o.tag = 7 →
      i ∈ usage.tt → r.o.payload ∈ usage.tt)
    (readable : ∀ i t, d.resolveObject t = some (Col.tripleTerm i) → Term.read t.bytes = some t)
    (levels : Nat) {st st' : TtMerge} (inv : Inv d split usage D n n st)
    (run : (List.range' (n + 1) levels).foldlM
      (TtMerge.addLevel maps usage d.ttRecords (split.tts.map Prod.snd)) st = .ok st') :
    Inv d split usage D (n + levels) (n + levels) st' := by
  induction levels generalizing n st with
  | zero =>
      cases run
      exact inv
  | succ levels ih =>
      rw [List.range'_succ, List.foldlM_cons] at run
      cases first : TtMerge.addLevel maps usage d.ttRecords (split.tts.map Prod.snd) st (n + 1) with
      | error e =>
          rw [first] at run
          cases run
      | ok st1 =>
          rw [first] at run
          have rest := ih (inv.addLevel former parts carries plain closed readable first) run
          rwa [show n + 1 + levels = n + (levels + 1) by omega] at rest

end Levels

end TtMerge

/-! ## The merged dictionary -/

namespace Dictionary

theorem WF.plainValue_iff {d : Dictionary} (wf : d.WF) {b : Bytes} {v : Col} :
    (d.inSo d.subjects b = some v ↔ d.plainValue v .subject = some b) ∧
      ((locate d.predicates b).map Col.dict = some v ↔ d.plainValue v .predicate = some b) ∧
      (d.inSo d.objects b = some v ↔ d.plainValue v .object = some b) :=
  ⟨wf.inSo_subjects, wf.locate_predicates, wf.inSo_objects⟩

omit [InlineCodec] in
theorem plainValue_tag {d : Dictionary} {pos : TermPos} {b : Bytes} {v : Col}
    (h : d.plainValue v pos = some b) : v = Col.dict v.raw := by
  have tag : v.tag = 0 := by
    cases pos with
    | subject | object => exact (sectionValue_valid h).1
    | predicate =>
        simp only [plainValue, predicateValue] at h
        split at h
        · assumption
        · cases h
    | graph =>
        simp only [plainValue] at h
        split at h
        · assumption
        · cases h
  rw [Col.raw, tag, Nat.zero_mul, Nat.zero_add]
  exact Col.eq_dict_of_tag tag

/-- Every value of the merged sections and records reads back as it is. -/
theorem Plain.accepted {d : Dictionary} (plain : d.Plain) (wf : d.WF)
    (records : ∀ (i : Nat) (r : TripleKey), d.ttRecords[i]? = some r →
      ∃ t, d.RecordOf r t ∧ Term.read t.bytes = some t) : d.Accepted where
  subject := by
    intro v b h
    simp only [decodeBytes, decodeValue, Option.map_map] at h
    obtain ⟨b', value, rfl⟩ := Option.map_eq_some_iff.mp h
    exact plain.subject b' (mem_of_sectionValue value)
  predicate := by
    intro v b h
    simp only [decodeBytes, decodeValue, Option.map_map] at h
    obtain ⟨b', value, rfl⟩ := Option.map_eq_some_iff.mp h
    simp only [predicateValue] at value
    split at value
    · exact plain.predicate b' (List.mem_of_getElem? value)
    · cases value
  graph := by
    intro v b h
    simp only [decodeBytes, decodeValue] at h
    split at h
    · rw [Option.map_map] at h
      obtain ⟨b', value, rfl⟩ := Option.map_eq_some_iff.mp h
      exact plain.graph b' (List.mem_of_getElem? value)
    · cases h
  object := by
    intro v valid t decoded
    obtain ⟨t', decoded', resolved⟩ := wf.resolve_of_valid valid
    rw [decoded] at decoded'
    obtain rfl := Option.some.inj decoded'
    by_cases tag : v.tag = 7
    · obtain ⟨r, get, -⟩ := record_of_resolve resolved tag
      obtain ⟨t', of, read⟩ := records _ r get
      have found := (idxOf?_eq_some_iff wf.tt_nodup).mpr get
      have same := resolve_of_recordOf of found
      rw [← Col.eq_tripleTerm_of_tag tag] at same
      rw [wf.resolveObject_inj resolved same]
      exact read
    · obtain ⟨b, rfl⟩ := atom_of_resolve resolved tag
      change d.resolveObject (.atom b) = some v at resolved
      simp only [resolveObject] at resolved
      cases inline : tryInline b with
      | some c => exact InlineCodec.read_tryInline inline
      | none =>
          rw [inline] at resolved
          exact (plain.object b (mem_of_sectionValue (wf.inSo_objects.mp resolved))).1

end Dictionary

omit [InlineCodec] in
theorem foldl_update {l : List (Nat × Nat)} {f : Nat → Option Col} {t : RemapCol} {i : Nat} {c : Col}
    (h : (l.foldl (fun t e => Function.update t e.1 (f e.2)) t) i = some c) :
    (∃ e ∈ l, e.1 = i ∧ f e.2 = some c) ∨ t i = some c := by
  induction l generalizing t with
  | nil => exact Or.inr h
  | cons e l ih =>
      rw [List.foldl_cons] at h
      rcases ih h with ⟨e', mem, found⟩ | here
      · exact Or.inl ⟨e', List.mem_cons_of_mem _ mem, found⟩
      · by_cases same : i = e.1
        · rw [same, Function.update_self] at here
          exact Or.inl ⟨e, List.mem_cons_self, same.symm, here⟩
        · rw [Function.update_of_ne same] at here
          exact Or.inr here

/-- What merging the dictionaries guarantees: a dictionary like those of the builders, and
new values that stand for what the old ones did. -/
structure MergedDict.Spec (snap : Snapshot) (md : MergedDict) : Prop where
  wf : md.dict.WF
  accepted : md.dict.Accepted
  sorted : md.dict.Sorted
  subj : ∀ v w, snap.ValidCol v .subject → md.mapSubj v = .ok w →
    ∃ b, snap.decodeValue v .subject = some b ∧ md.dict.plainValue w .subject = some b
  pred : ∀ v w, snap.ValidCol v .predicate → md.mapPred v = .ok w →
    ∃ b, snap.decodeValue v .predicate = some b ∧ md.dict.plainValue w .predicate = some b
  obj : ∀ v w, snap.ValidCol v .object → md.mapObj v = .ok w →
    ∃ t, snap.decodeValue v .object = some t.bytes ∧ md.dict.resolveObject t = some w
  graph : ∀ v w, snap.ValidCol v .graph → md.mapGraph v = .ok w →
    ∃ b u, snap.decodeValue v .graph = some b ∧ md.dict.plainValue u .graph = some b ∧
      w = TermPos.graph.column u

section Dictionaries

variable {snap : Snapshot} (sound : snap.Sound) (clean : snap.delta.Clean)
  (sorted : snap.base.dict.Sorted) {usage : Usage}
include sound clean sorted

variable (usage) in
/-- The tables of the section merge give every term its new value. -/
theorem carries_sections {objects : OverlayObjects}
    (inv : objects.Inv (sortedOverlay snap .object)) (fuel : Nat) :
    let sections := (Sources.groups fuel (mergeSources snap usage objects)).foldl
      (SectionMerge.place usage snap.base.dict.shared.length) SectionMerge.start
    Carries snap.base.dict objects.split sections.fixup (sections.dict []) := by
  intro sections
  obtain ⟨placed, plain⟩ := sections_inv sound clean usage inv sorted fuel
  have wf : (sections.dict []).WF := (plain []).wf List.nodup_nil (by simp [SectionMerge.dict])
  have old := sound.wf.dict
  have value {T : Table} {i : Nat} {c : Col} (h : sections.fixup.table T i = some c) :=
    placed.fixup [] h
  -- the bytes of a base value are those its table entry is from
  have same {pos : TermPos} {b b' : Bytes} {v : Col} (notGraph : pos ≠ .graph)
      (there : snap.base.dict.plainValue v pos = some b)
      (decoded : snap.decodeValue (Col.dict v.raw) pos = some b') : b' = b := by
    have here := (decodeValue_plainValue sound there).1
    rw [TermPos.column, if_neg notGraph, Dictionary.plainValue_tag there, decoded] at here
    exact Option.some.inj here
  constructor
  · intro s v c resolved entry
    obtain ⟨b, ⟨at_, -⟩, new⟩ := value (T := .subj) entry
    rw [same (by decide) (old.plainValue_iff.1.mp resolved) at_] at new
    exact wf.plainValue_iff.1.mpr new
  · intro p v c resolved entry
    obtain ⟨b, ⟨at_, -⟩, new⟩ := value (T := .pred) entry
    rw [same (by decide) (old.plainValue_iff.2.1.mp resolved) at_] at new
    exact wf.plainValue_iff.2.1.mpr new
  · intro o v c resolved entry
    obtain ⟨b, ⟨at_, -⟩, new⟩ := value (T := .obj) entry
    rw [same (by decide) (old.plainValue_iff.2.2.mp resolved) at_] at new
    exact wf.plainValue_iff.2.2.mpr new
  · intro s i c get entry
    obtain ⟨b, ⟨at_, -⟩, new⟩ := value (T := .extraSubj) entry
    rw [Option.some.inj (at_.symm.trans get)] at new
    exact wf.plainValue_iff.1.mpr new
  · intro p i c get entry
    obtain ⟨b, ⟨at_, -⟩, new⟩ := value (T := .extraPred) entry
    rw [Option.some.inj (at_.symm.trans get)] at new
    exact wf.plainValue_iff.2.1.mpr new
  · intro o i c get entry
    obtain ⟨b, ⟨at_, -⟩, new⟩ := value (T := .extraObj) entry
    rw [Option.some.inj (at_.symm.trans get)] at new
    exact wf.plainValue_iff.2.2.mpr new

/-- Merging the dictionaries of a clean snapshot, for a usage that has the inner triple terms
of what it has. -/
theorem mergeDictionaries_spec
    (closed : ∀ (i : Nat) (r : TripleKey), snap.base.dict.ttRecords[i]? = some r → r.o.tag = 7 →
      i ∈ usage.tt → r.o.payload ∈ usage.tt)
    {md : MergedDict} (run : mergeDictionaries snap usage = .ok md) : md.Spec snap := by
  have old := sound.wf.dict
  have fits := sound.wf.fits
  simp only [mergeDictionaries, bind, Except.bind] at run
  cases sorting : (sortedOverlay snap .object).foldlM (OverlayObjects.take usage)
      ⟨[], OverlayTts.empty, []⟩ with
  | error e =>
      rw [sorting] at run
      cases run
  | ok objects =>
      simp only [sorting] at run
      have overlayObjects := OverlayObjects.inv_start.foldlM (sortedOverlay snap .object)
        (fun e mem => by
          obtain ⟨j, get, -⟩ := mem_sortedOverlay sound mem
          exact clean .object e.1 (List.mem_of_getElem? get)) sorting
      rw [List.nil_append] at overlayObjects
      generalize hf : ((mergeSources snap usage objects).map fun s => s.2.length).sum + 1 = fuel at run
      obtain ⟨placed, plain⟩ := sections_inv sound clean usage overlayObjects sorted fuel
      have carries := carries_sections sound clean sorted usage overlayObjects fuel
      simp only at carries
      generalize (Sources.groups fuel (mergeSources snap usage objects)).foldl
        (SectionMerge.place usage snap.base.dict.shared.length) SectionMerge.start = sections
        at run placed plain carries
      split at run
      · cases run
      · rename_i merged levels
        cases run
        have readable (i : Nat) (t : Term)
            (h : snap.base.dict.resolveObject t = some (Col.tripleTerm i)) :
            Term.read t.bytes = some t :=
          sound.accepted.object _ (old.resolveObject_valid h) t
            (old.decodeObject_of h)
        have inv := (TtMerge.inv_start snap.base.dict objects.split usage (sections.dict [])).addLevels
          old overlayObjects.split carries (plain []) closed readable _ levels
        have wf : (sections.dict merged.records).WF := inv.wf (plain [])
        have value {T : Table} {i : Nat} {c : Col} (h : sections.fixup.table T i = some c) :=
          placed.fixup merged.records h
        have accepted := (plain merged.records).accepted wf fun i r get => by
          obtain ⟨t, of, read, -⟩ := inv.record i r get
          exact ⟨t, of, read⟩
        -- a dictionary value of a tag 0 is the word of its payload
        have word {v : Col} (tag : v.tag = 0) : v = Col.dict v.raw := by
          rw [Col.raw, tag, Nat.zero_mul, Nat.zero_add]
          exact Col.eq_dict_of_tag tag
        refine ⟨wf, accepted, (plain merged.records).toSorted, ?_, ?_, ?_, ?_⟩
        · intro v w valid mapped
          obtain ⟨b, ⟨at_, -⟩, new⟩ := value (T := .subj) (TtMerge.RemapCol.get_ok mapped)
          exact ⟨b, word valid.1 ▸ at_, new⟩
        · intro v w valid mapped
          obtain ⟨b, ⟨at_, -⟩, new⟩ := value (T := .pred) (TtMerge.RemapCol.get_ok mapped)
          exact ⟨b, word valid.1 ▸ at_, new⟩
        · intro v w valid mapped
          rcases valid with ⟨tag, -⟩ | ⟨tag, bound⟩ | ⟨b, inline⟩
          · simp only [MergedDict.mapObj, tag] at mapped
            rcases foldl_update (TtMerge.RemapCol.get_ok mapped) with ⟨e, mem, id, found⟩ | entry
            · obtain ⟨b, listed, there⟩ := overlayObjects.tts e mem
              obtain ⟨t, ⟨b', parts, s, p, o, get, part, rfl⟩, new⟩ := inv.overlay e.2 w found
              obtain ⟨j, terms, eq⟩ := mem_sortedOverlay sound listed
              refine ⟨_, ?_, new⟩
              rw [List.getElem?_map, get] at there
              have same : b' = b := Option.some.inj there
              rw [part.spelled, same, word tag, ← id, show e.1 = _ from eq]
              exact Snapshot.decodeValue_overlay sound terms
            · obtain ⟨b, ⟨at_, -, bare⟩, new⟩ := value (T := .obj) entry
              refine ⟨.atom b, word tag ▸ at_, ?_⟩
              simp only [Dictionary.resolveObject, bare]
              exact wf.inSo_objects.mpr new
          · simp only [MergedDict.mapObj, tag] at mapped
            obtain ⟨t, there, new⟩ := inv.rTt _ w (TtMerge.RemapCol.get_ok mapped)
            refine ⟨t, ?_, new⟩
            have decoded := old.decodeObject_of there
            rw [← Col.eq_tripleTerm_of_tag tag] at decoded
            have high : ¬ (v.tag = 0 ∧ Col.dict snap.base.dict.nObjects ≤ v) := by omega
            simp only [Snapshot.decodeValue, if_neg high, Dictionary.decodeBytes, decoded,
              Option.map_some]
          · have tag := InlineCodec.tag_tryInline inline
            have same : w = v := by
              simp only [MergedDict.mapObj] at mapped
              split at mapped
              · omega
              · omega
              · exact (Except.ok.inj mapped).symm
            subst same
            have resolved {d : Dictionary} : d.resolveObject (.atom b) = some w := by
              simp only [Dictionary.resolveObject, inline]
            have decoded := old.decodeObject_of resolved
            have high : ¬ (w.tag = 0 ∧ Col.dict snap.base.dict.nObjects ≤ w) := by omega
            refine ⟨.atom b, ?_, resolved⟩
            simp only [Snapshot.decodeValue, if_neg high, Dictionary.decodeBytes, decoded,
              Option.map_some]
        · intro v w valid mapped
          simp only [MergedDict.mapGraph] at mapped
          split at mapped
          · rename_i zero
            have := valid.2.1
            rw [zero] at this
            simp at this
          · simp only [bind, Except.bind] at mapped
            split at mapped
            · cases mapped
            · rename_i u entry
              cases mapped
              obtain ⟨b, ⟨at_, -⟩, new⟩ := value (T := .graph) (TtMerge.RemapCol.get_ok entry)
              refine ⟨b, u, ?_, new, rfl⟩
              have raw : v.raw = v.payload := by
                rw [Col.raw, valid.1, Nat.zero_mul, Nat.zero_add]
              have ordinal : v.raw - 1 + 1 = v.payload := by
                have := valid.2.1
                omega
              rw [OldAt, ordinal, ← Col.eq_dict_of_tag valid.1] at at_
              exact at_

end Dictionaries

end Graphy
