import Graphy.Core.Spelling
import Mathlib.Data.List.Nodup

/-!
# Segment dictionary

Five byte-sorted sections and the triple-term table.  Terms that are both
subject and object live in the shared section, which heads both id spaces;
predicates and graph names have spaces of their own.  A record of the
triple-term table holds column values and refers only to records before it.
-/

namespace Graphy

/-- Position of a section entry. -/
def locate (entries : List Bytes) (b : Bytes) : Option Nat := entries.idxOf? b

/-- The dictionary sections and the triple-term records of one segment. -/
structure Dictionary where
  shared : List Bytes
  subjects : List Bytes
  predicates : List Bytes
  objects : List Bytes
  graphs : List Bytes
  ttRecords : List TripleKey
deriving DecidableEq, Repr

namespace Dictionary

variable [InlineCodec]

/-- Size of the subject space. -/
def nSubjects (d : Dictionary) : Nat := d.shared.length + d.subjects.length

/-- Size of the object dictionary space. -/
def nObjects (d : Dictionary) : Nat := d.shared.length + d.objects.length

/-- Bytes of a subject or object dictionary value: the shared section, then the
position's own section. -/
def sectionValue (d : Dictionary) (own : List Bytes) (v : Col) : Option Bytes :=
  if v < Col.dict d.shared.length then d.shared[v.payload]?
  else if v.tag = 0 then own[v.payload - d.shared.length]?
  else none

def predicateValue (d : Dictionary) (v : Col) : Option Bytes :=
  if v.tag = 0 then d.predicates[v.payload]? else none

/-- Concise term of an object column value; `fuel` bounds the nesting. -/
def decodeObject (d : Dictionary) : Nat → Col → Option Term
  | fuel, v =>
      match v.tag with
      | 0 => (d.sectionValue d.objects v).map .atom
      | 7 =>
          match fuel with
          | 0 => none
          | fuel + 1 => do
              let r ← d.ttRecords[v.payload]?
              let s ← d.sectionValue d.subjects r.s
              let p ← d.predicateValue r.p
              let o ← d.decodeObject fuel r.o
              some (.tripleTerm s p o)
      | _ => (inlineConcise v).map .atom

/-- Concise term of a column value; graph values are section ordinals here. -/
def decodeValue (d : Dictionary) (v : Col) (pos : TermPos) : Option Term :=
  match pos with
  | .subject => (d.sectionValue d.subjects v).map .atom
  | .predicate => (d.predicateValue v).map .atom
  | .graph => if v.tag = 0 then d.graphs[v.payload]?.map .atom else none
  | .object => d.decodeObject d.ttRecords.length v

/-- Look a term up in the shared section, then in the position's own. -/
def inSo (d : Dictionary) (own : List Bytes) (b : Bytes) : Option Col :=
  match locate d.shared b with
  | some i => some (Col.dict i)
  | none => (locate own b).map fun i => Col.dict (d.shared.length + i)

def resolveObject (d : Dictionary) : Term → Option Col
  | .atom b =>
      match tryInline b with
      | some c => some c
      | none => d.inSo d.objects b
  | .tripleTerm s p o => do
      let s ← d.inSo d.subjects s
      let p ← locate d.predicates p
      let o ← d.resolveObject o
      (d.ttRecords.idxOf? ⟨s, Col.dict p, o⟩).map Col.tripleTerm

/-- Column value of a concise term in the given position, if present; graph
values are section ordinals here. -/
def resolveTerm (d : Dictionary) (t : Term) (pos : TermPos) : Option Col :=
  match pos, t with
  | .object, t => d.resolveObject t
  | .subject, .atom b => d.inSo d.subjects b
  | .predicate, .atom b => (locate d.predicates b).map Col.dict
  | .graph, .atom b => (locate d.graphs b).map Col.dict
  | _, .tripleTerm .. => none

/-- Concise bytes of a column value; a triple term takes the encoder's spelling. -/
def decodeBytes (d : Dictionary) (v : Col) (pos : TermPos) : Option Bytes :=
  (d.decodeValue v pos).map Term.bytes

/-- Column value of concise bytes in the given position, if present: an object is
decoded first. -/
def resolveBytes (d : Dictionary) (b : Bytes) (pos : TermPos) : Option Col :=
  match pos with
  | .object => (Term.read b).bind d.resolveObject
  | pos => d.resolveTerm (.atom b) pos

/-- The bytes an object is stored under: the encoder's spelling of a term the
dictionary has, the given bytes of any other. -/
def named (d : Dictionary) (b : Bytes) : Bytes :=
  match Term.read b with
  | none => b
  | some t => if (d.resolveObject t).isSome then t.bytes else b

/-- The bytes a term is stored under in a position. -/
def namedAt (d : Dictionary) (b : Bytes) : TermPos → Bytes
  | .object => d.named b
  | _ => b

/-- A column value that names an entry of the position's space.  An inline value
names an entry when the codec produces it. -/
def Valid (d : Dictionary) (v : Col) : TermPos → Prop
  | .subject => v.tag = 0 ∧ v.payload < d.nSubjects
  | .predicate => v.tag = 0 ∧ v.payload < d.predicates.length
  | .graph => v.tag = 0 ∧ v.payload < d.graphs.length
  | .object =>
      (v.tag = 0 ∧ v.payload < d.nObjects) ∨ (v.tag = 7 ∧ v.payload < d.ttRecords.length) ∨
        ∃ b, tryInline b = some v

/-- What the builders guarantee of a dictionary. -/
structure WF (d : Dictionary) : Prop where
  shared_nodup : d.shared.Nodup
  subjects_nodup : d.subjects.Nodup
  predicates_nodup : d.predicates.Nodup
  objects_nodup : d.objects.Nodup
  graphs_nodup : d.graphs.Nodup
  /-- A term of both positions is in the shared section only. -/
  shared_subjects : ∀ b ∈ d.shared, b ∉ d.subjects
  shared_objects : ∀ b ∈ d.shared, b ∉ d.objects
  subjects_objects : ∀ b ∈ d.subjects, b ∉ d.objects
  /-- Subjects are IRIs or blank nodes, predicates IRIs, graph names either. -/
  shared_kind : ∀ b ∈ d.shared, sigilKind b ≠ .literal
  subjects_kind : ∀ b ∈ d.subjects, sigilKind b ≠ .literal
  predicates_kind : ∀ b ∈ d.predicates, sigilKind b = .iri
  graphs_kind : ∀ b ∈ d.graphs, sigilKind b ≠ .literal
  /-- Inline-encodable literals never enter the dictionary. -/
  objects_inline : ∀ b ∈ d.objects, tryInline b = none
  tt_nodup : d.ttRecords.Nodup
  /-- Records hold values of the three spaces and refer only backwards. -/
  tt_valid : ∀ (i : Nat) (r : TripleKey), d.ttRecords[i]? = some r →
    d.Valid r.s .subject ∧ d.Valid r.p .predicate ∧ d.Valid r.o .object ∧
      (r.o.tag = 7 → r.o.payload < i)

/-- Bytes that decode to an IRI, or to a blank node where one may stand. -/
def AcceptedNode (b : Bytes) (allowBlank : Bool) : Prop :=
  (∃ iri, Concise.decode b = .ok (.iri iri)) ∨
    allowBlank = true ∧ ∃ label, Concise.decode b = .ok (.blankNode label)

omit [InlineCodec] in
/-- A node reads back as a plain term. -/
theorem AcceptedNode.read {b : Bytes} {allowBlank : Bool} (h : AcceptedNode b allowBlank) :
    Term.read b = some (.atom b) := by
  have plain {t : TermRef} (decoded : Concise.decode b = .ok t) (atom : ∀ p, t ≠ .tripleTerm p) :
      Term.read b = some (.atom b) := by
    simp only [Concise.decode] at decoded
    simp only [Term.read, Term.readAt, decoded]
  rcases h with ⟨iri, decoded⟩ | ⟨-, label, decoded⟩
  · exact plain decoded (by simp)
  · exact plain decoded (by simp)

/-- What the builders check of the terms they take in: nodes decode to what may stand in
their position, and every object reads back as the term it is. -/
structure Accepted (d : Dictionary) : Prop where
  subject : ∀ v b, d.decodeBytes v .subject = some b → AcceptedNode b true
  predicate : ∀ v b, d.decodeBytes v .predicate = some b → AcceptedNode b false
  graph : ∀ v b, d.decodeBytes v .graph = some b → AcceptedNode b true
  object : ∀ v, d.Valid v .object → ∀ t, d.decodeValue v .object = some t → Term.read t.bytes = some t

end Dictionary

/-- Locating finds the position of an entry of a duplicate-free section. -/
theorem idxOf?_eq_some_iff {α : Type} [BEq α] [LawfulBEq α] {l : List α} (nodup : l.Nodup)
    {a : α} {i : Nat} : l.idxOf? a = some i ↔ l[i]? = some a := by
  rw [List.idxOf?, List.findIdx?_eq_some_iff_getElem]
  constructor
  · rintro ⟨bound, found, -⟩
    rw [List.getElem?_eq_getElem bound]
    simpa using found
  · intro get
    obtain ⟨bound, eq⟩ := List.getElem?_eq_some_iff.mp get
    refine ⟨bound, by simpa using eq, ?_⟩
    intro j lt
    have ne : l[j] ≠ l[i] := fun e =>
      absurd ((List.Nodup.getElem_inj_iff nodup).mp e) (by omega)
    simpa [eq] using ne

theorem locate_eq_some_iff {entries : List Bytes} (nodup : entries.Nodup) {b : Bytes} {i : Nat} :
    locate entries b = some i ↔ entries[i]? = some b :=
  idxOf?_eq_some_iff nodup

theorem locate_eq_none_iff {entries : List Bytes} {b : Bytes} :
    locate entries b = none ↔ b ∉ entries := by
  simp only [locate, List.idxOf?_eq_none_iff]

/-- Kind of a spelling no inline value has. -/
theorem tryInline_eq_none [InlineCodec] {b : Bytes} (h : sigilKind b ≠ .literal) :
    tryInline b = none := by
  cases e : tryInline b with
  | none => rfl
  | some c => exact absurd (InlineCodec.kind_tryInline e) h

namespace Dictionary

variable {d : Dictionary}

/-- The shared-then-own lookup inverts the shared-then-own table. -/
theorem inSo_eq_some_iff {own : List Bytes} (sharedNodup : d.shared.Nodup) (ownNodup : own.Nodup)
    (disjoint : ∀ b ∈ d.shared, b ∉ own) {b : Bytes} {v : Col} :
    d.inSo own b = some v ↔ d.sectionValue own v = some b := by
  simp only [inSo, sectionValue]
  constructor
  · intro h
    cases e : locate d.shared b with
    | some i =>
        rw [e] at h
        cases h
        have get := (locate_eq_some_iff sharedNodup).mp e
        have bound := (List.getElem?_eq_some_iff.mp get).1
        simpa [bound] using get
    | none =>
        rw [e] at h
        obtain ⟨i, found, rfl⟩ := Option.map_eq_some_iff.mp h
        have get := (locate_eq_some_iff ownNodup).mp found
        simpa using get
  · intro h
    by_cases low : v < Col.dict d.shared.length
    · rw [if_pos low] at h
      have tag := (Col.lt_dict_iff.mp low).1
      rw [(locate_eq_some_iff sharedNodup).mpr h]
      exact congrArg some (Col.eq_dict_of_tag tag).symm
    · rw [if_neg low] at h
      by_cases tag : v.tag = 0
      · rw [if_pos tag] at h
        have missing : locate d.shared b = none := by
          rw [locate_eq_none_iff]
          intro mem
          exact disjoint b mem (List.mem_of_getElem? h)
        rw [missing, (locate_eq_some_iff ownNodup).mpr h]
        have ge : d.shared.length ≤ v.payload := by
          rcases Col.dict_le_iff.mp (not_lt.mp low) with pos | ge
          · omega
          · exact ge
        simp only [Option.map_some, Option.some.injEq]
        rw [Nat.add_sub_cancel' ge]
        exact (Col.eq_dict_of_tag tag).symm
      · rw [if_neg tag] at h
        cases h

theorem sectionValue_valid {own : List Bytes} {v : Col} {b : Bytes}
    (h : d.sectionValue own v = some b) :
    v.tag = 0 ∧ v.payload < d.shared.length + own.length := by
  simp only [sectionValue] at h
  by_cases low : v < Col.dict d.shared.length
  · obtain ⟨tag, lt⟩ := Col.lt_dict_iff.mp low
    exact ⟨tag, by omega⟩
  · rw [if_neg low] at h
    by_cases tag : v.tag = 0
    · rw [if_pos tag] at h
      have bound := (List.getElem?_eq_some_iff.mp h).1
      exact ⟨tag, by omega⟩
    · rw [if_neg tag] at h
      cases h

theorem sectionValue_of_valid {own : List Bytes} {v : Col} (tag : v.tag = 0)
    (bound : v.payload < d.shared.length + own.length) : ∃ b, d.sectionValue own v = some b := by
  simp only [sectionValue, Col.lt_dict_iff, tag, true_and]
  by_cases low : v.payload < d.shared.length
  · exact ⟨_, by rw [if_pos low]; exact List.getElem?_eq_getElem low⟩
  · refine ⟨own[v.payload - d.shared.length], ?_⟩
    rw [if_neg low, if_pos trivial]
    exact List.getElem?_eq_getElem (by omega)

theorem mem_of_sectionValue {own : List Bytes} {v : Col} {b : Bytes}
    (h : d.sectionValue own v = some b) : b ∈ d.shared ∨ b ∈ own := by
  simp only [sectionValue] at h
  split at h
  · exact Or.inl (List.mem_of_getElem? h)
  · split at h
    · exact Or.inr (List.mem_of_getElem? h)
    · cases h

section WF

variable [InlineCodec] (wf : d.WF)
include wf

theorem WF.inSo_subjects {b : Bytes} {v : Col} :
    d.inSo d.subjects b = some v ↔ d.sectionValue d.subjects v = some b :=
  inSo_eq_some_iff wf.shared_nodup wf.subjects_nodup wf.shared_subjects

theorem WF.inSo_objects {b : Bytes} {v : Col} :
    d.inSo d.objects b = some v ↔ d.sectionValue d.objects v = some b :=
  inSo_eq_some_iff wf.shared_nodup wf.objects_nodup wf.shared_objects

theorem WF.locate_predicates {b : Bytes} {v : Col} :
    (locate d.predicates b).map Col.dict = some v ↔ d.predicateValue v = some b := by
  simp only [predicateValue]
  constructor
  · intro h
    obtain ⟨i, found, rfl⟩ := Option.map_eq_some_iff.mp h
    simpa using (locate_eq_some_iff wf.predicates_nodup).mp found
  · intro h
    by_cases tag : v.tag = 0
    · rw [if_pos tag] at h
      rw [(locate_eq_some_iff wf.predicates_nodup).mpr h]
      exact congrArg some (Col.eq_dict_of_tag tag).symm
    · rw [if_neg tag] at h
      cases h

/-- An object-space dictionary entry is not inline-encodable. -/
theorem WF.tryInline_of_objectValue {v : Col} {b : Bytes}
    (h : d.sectionValue d.objects v = some b) : tryInline b = none := by
  rcases mem_of_sectionValue h with mem | mem
  · exact tryInline_eq_none (wf.shared_kind b mem)
  · exact wf.objects_inline b mem

/-- Resolving an object term and decoding the value gives the term back. -/
theorem WF.decodeObject_of_resolve {t : Term} {v : Col} (h : d.resolveObject t = some v)
    {fuel : Nat} (enough : v.tag = 7 → v.payload < fuel) : d.decodeObject fuel v = some t := by
  induction t generalizing v fuel with
  | atom b =>
      simp only [resolveObject] at h
      cases e : tryInline b with
      | some c =>
          rw [e] at h
          cases h
          obtain ⟨low, high⟩ := InlineCodec.tag_tryInline e
          have tag0 : v.tag ≠ 0 := by omega
          have tag7 : v.tag ≠ 7 := by omega
          have back := InlineCodec.inlineConcise_tryInline e
          unfold decodeObject
          split
          · exact absurd ‹_› tag0
          · exact absurd ‹_› tag7
          · simp [back]
      | none =>
          rw [e] at h
          have value := wf.inSo_objects.mp h
          have tag := (sectionValue_valid value).1
          unfold decodeObject
          simp [tag, value]
  | tripleTerm s p o ih =>
      simp only [resolveObject, Option.bind_eq_bind, Option.bind_eq_some_iff,
        Option.map_eq_some_iff] at h
      obtain ⟨sv, hs, pv, hp, ov, ho, i, hi, rfl⟩ := h
      have get := (idxOf?_eq_some_iff wf.tt_nodup).mp hi
      have back := (wf.tt_valid i _ get).2.2.2
      have lt := enough rfl
      simp only [Col.tripleTerm_payload] at lt
      cases fuel with
      | zero => omega
      | succ fuel =>
          have object : d.decodeObject fuel ov = some o :=
            ih ho (fun tag => by have := back tag; simp at this; omega)
          have subject := wf.inSo_subjects.mp hs
          have predicate : d.predicateValue (Col.dict pv) = some p :=
            wf.locate_predicates.mp (by rw [hp]; rfl)
          unfold decodeObject
          simp [get, subject, predicate, object]

/-- A valid object value decodes, and its term resolves back to it. -/
theorem WF.resolve_of_decodeObject {v : Col} (h : d.Valid v .object) {fuel : Nat}
    (enough : v.tag = 7 → v.payload < fuel) :
    ∃ t, d.decodeObject fuel v = some t ∧ d.resolveObject t = some v := by
  induction fuel generalizing v with
  | zero =>
      rcases h with ⟨tag, bound⟩ | ⟨tag, -⟩ | ⟨b, inline⟩
      · obtain ⟨b, value⟩ := sectionValue_of_valid tag bound
        refine ⟨.atom b, by unfold decodeObject; simp [tag, value], ?_⟩
        simp [resolveObject, wf.tryInline_of_objectValue value, wf.inSo_objects.mpr value]
      · exact absurd (enough tag) (by omega)
      · have resolved : d.resolveObject (.atom b) = some v := by simp [resolveObject, inline]
        exact ⟨.atom b, wf.decodeObject_of_resolve resolved enough, resolved⟩
  | succ fuel ih =>
      rcases h with ⟨tag, bound⟩ | ⟨tag, bound⟩ | ⟨b, inline⟩
      · obtain ⟨b, value⟩ := sectionValue_of_valid tag bound
        refine ⟨.atom b, by unfold decodeObject; simp [tag, value], ?_⟩
        simp [resolveObject, wf.tryInline_of_objectValue value, wf.inSo_objects.mpr value]
      · have get : d.ttRecords[v.payload]? = some d.ttRecords[v.payload] :=
          List.getElem?_eq_getElem bound
        obtain ⟨hs, hp, ho, back⟩ := wf.tt_valid _ _ get
        have lt := enough tag
        obtain ⟨s, subject⟩ := sectionValue_of_valid hs.1 hs.2
        obtain ⟨p, predicate⟩ : ∃ p, d.predicateValue d.ttRecords[v.payload].p = some p :=
          ⟨_, by rw [predicateValue, if_pos hp.1]; exact List.getElem?_eq_getElem hp.2⟩
        obtain ⟨o, object, resolved⟩ := ih ho (fun tag => by have := back tag; omega)
        refine ⟨.tripleTerm s p o, ?_, ?_⟩
        · unfold decodeObject
          simp [tag, get, subject, predicate, object]
        · have rs := wf.inSo_subjects.mpr subject
          obtain ⟨pi, rp, eq⟩ := Option.map_eq_some_iff.mp (wf.locate_predicates.mpr predicate)
          have ri := (idxOf?_eq_some_iff wf.tt_nodup).mpr get
          have whole : (⟨d.ttRecords[v.payload].s, Col.dict pi, d.ttRecords[v.payload].o⟩ : TripleKey) =
              d.ttRecords[v.payload] := by rw [eq]
          simp only [resolveObject, rs, rp, resolved, Option.bind_eq_bind, Option.bind_some, whole,
            ri, Option.map_some]
          exact congrArg some (Col.eq_tripleTerm_of_tag tag).symm
      · have resolved : d.resolveObject (.atom b) = some v := by simp [resolveObject, inline]
        exact ⟨.atom b, wf.decodeObject_of_resolve resolved enough, resolved⟩

/-- Resolution only produces valid values. -/
theorem WF.resolveObject_valid {t : Term} {v : Col} (h : d.resolveObject t = some v) :
    d.Valid v .object := by
  cases t with
  | atom b =>
      simp only [resolveObject] at h
      cases e : tryInline b with
      | some c =>
          rw [e] at h
          cases h
          exact Or.inr (Or.inr ⟨b, e⟩)
      | none =>
          rw [e] at h
          exact Or.inl (sectionValue_valid (wf.inSo_objects.mp h))
  | tripleTerm s p o =>
      simp only [resolveObject, Option.bind_eq_bind, Option.bind_eq_some_iff,
        Option.map_eq_some_iff] at h
      obtain ⟨_, _, _, _, _, _, i, hi, rfl⟩ := h
      have get := (idxOf?_eq_some_iff wf.tt_nodup).mp hi
      exact Or.inr (Or.inl ⟨rfl, (List.getElem?_eq_some_iff.mp get).1⟩)

/-- Resolving a term and decoding the value gives the term back, in every position. -/
theorem WF.decodeValue_of_resolve {t : Term} {v : Col} {pos : TermPos}
    (h : d.resolveTerm t pos = some v) : d.Valid v pos ∧ d.decodeValue v pos = some t := by
  cases pos with
  | object =>
      have valid := wf.resolveObject_valid h
      refine ⟨valid, wf.decodeObject_of_resolve h ?_⟩
      intro tag
      rcases valid with ⟨zero, -⟩ | ⟨-, bound⟩ | ⟨b, inline⟩
      · omega
      · exact bound
      · have := InlineCodec.tag_tryInline inline
        omega
  | subject =>
      cases t with
      | tripleTerm => cases h
      | atom b =>
          have value := wf.inSo_subjects.mp h
          exact ⟨sectionValue_valid value, by simp [decodeValue, value]⟩
  | predicate =>
      cases t with
      | tripleTerm => cases h
      | atom b =>
          have value := wf.locate_predicates.mp h
          refine ⟨?_, by simp [decodeValue, value]⟩
          simp only [predicateValue] at value
          by_cases tag : v.tag = 0
          · rw [if_pos tag] at value
            exact ⟨tag, (List.getElem?_eq_some_iff.mp value).1⟩
          · rw [if_neg tag] at value
            cases value
  | graph =>
      cases t with
      | tripleTerm => cases h
      | atom b =>
          obtain ⟨i, found, rfl⟩ := Option.map_eq_some_iff.mp h
          have get := (locate_eq_some_iff wf.graphs_nodup).mp found
          exact ⟨⟨rfl, (List.getElem?_eq_some_iff.mp get).1⟩, by simp [decodeValue, get]⟩

/-- A valid value decodes, and its term resolves back to it, in every position. -/
theorem WF.resolve_of_valid {v : Col} {pos : TermPos} (h : d.Valid v pos) :
    ∃ t, d.decodeValue v pos = some t ∧ d.resolveTerm t pos = some v := by
  cases pos with
  | object =>
      have enough : v.tag = 7 → v.payload < d.ttRecords.length := by
        intro tag
        rcases h with ⟨zero, -⟩ | ⟨-, bound⟩ | ⟨b, inline⟩
        · omega
        · exact bound
        · have := InlineCodec.tag_tryInline inline
          omega
      obtain ⟨t, decoded, resolved⟩ := wf.resolve_of_decodeObject h enough
      exact ⟨t, decoded, resolved⟩
  | subject =>
      obtain ⟨b, value⟩ := sectionValue_of_valid h.1 h.2
      exact ⟨.atom b, by simp [decodeValue, value], wf.inSo_subjects.mpr value⟩
  | predicate =>
      have bound : v.payload < d.predicates.length := h.2
      have value : d.predicateValue v = some d.predicates[v.payload] := by
        rw [predicateValue, if_pos h.1]
        exact List.getElem?_eq_getElem bound
      exact ⟨.atom _, by simp [decodeValue, value], wf.locate_predicates.mpr value⟩
  | graph =>
      have bound : v.payload < d.graphs.length := h.2
      have get : d.graphs[v.payload]? = some d.graphs[v.payload] :=
        List.getElem?_eq_getElem bound
      refine ⟨.atom d.graphs[v.payload], by simp [decodeValue, h.1, get], ?_⟩
      simp only [resolveTerm, (locate_eq_some_iff wf.graphs_nodup).mpr get, Option.map_some]
      exact congrArg some (Col.eq_dict_of_tag h.1).symm

/-- Resolving bytes gives a valid value of the term they are stored under. -/
theorem WF.decodeBytes_of_resolve {b : Bytes} {v : Col} {pos : TermPos}
    (h : d.resolveBytes b pos = some v) :
    d.Valid v pos ∧ d.decodeBytes v pos = some (d.namedAt b pos) := by
  cases pos with
  | object =>
      obtain ⟨t, read, resolved⟩ := Option.bind_eq_some_iff.mp h
      obtain ⟨valid, decoded⟩ := wf.decodeValue_of_resolve
        (show d.resolveTerm t .object = some v from resolved)
      refine ⟨valid, ?_⟩
      simp only [decodeBytes, decoded, namedAt, named, read, resolved, Option.isSome_some, if_true,
        Option.map_some]
  | subject | predicate | graph =>
      simp only [resolveBytes] at h
      obtain ⟨valid, decoded⟩ := wf.decodeValue_of_resolve h
      exact ⟨valid, by simp [decodeBytes, decoded, Term.bytes, namedAt]⟩

/-- A valid value has bytes that resolve back to it. -/
theorem WF.resolveBytes_of_valid (accepted : d.Accepted) {v : Col} {pos : TermPos}
    (h : d.Valid v pos) : ∃ b, d.decodeBytes v pos = some b ∧ d.resolveBytes b pos = some v := by
  obtain ⟨t, decoded, resolved⟩ := wf.resolve_of_valid h
  refine ⟨t.bytes, by rw [decodeBytes, decoded, Option.map_some], ?_⟩
  cases pos with
  | object =>
      rw [resolveBytes, accepted.object v h t decoded]
      exact resolved
  | subject | predicate | graph =>
      cases t with
      | atom b => exact resolved
      | tripleTerm => cases resolved

end WF

section Named

variable [InlineCodec]

/-- Bytes that resolve to nothing are stored as they are. -/
theorem namedAt_of_missing {b : Bytes} {pos : TermPos} (missing : d.resolveBytes b pos = none) :
    d.namedAt b pos = b := by
  cases pos with
  | object =>
      simp only [resolveBytes, Option.bind_eq_none_iff] at missing
      change d.named b = b
      unfold named
      split
      · rfl
      · rename_i t read
        simp [missing t read]
  | subject | predicate | graph => rfl

/-- The encoder's own spelling is kept. -/
theorem named_of_canonical {b : Bytes} (canonical : Term.Canonical b) : d.named b = b := by
  obtain ⟨t, read, spelled⟩ := canonical
  simp [named, read, spelled]

end Named

end Dictionary

/-- The quad a dictionary stores for the given terms. -/
def QuadTerms.named [InlineCodec] (d : Dictionary) (q : QuadTerms) : QuadTerms :=
  { q with o := d.named q.o }

/-- The object is spelled as the encoder does. -/
def QuadTerms.Canonical (q : QuadTerms) : Prop := Term.Canonical q.o

theorem QuadTerms.named_of_canonical [InlineCodec] {d : Dictionary} {q : QuadTerms}
    (canonical : q.Canonical) : q.named d = q := by
  rw [named, Dictionary.named_of_canonical canonical]

end Graphy
