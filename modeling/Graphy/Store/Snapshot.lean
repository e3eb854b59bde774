import Graphy.Store.Delta

/-!
# Snapshots

An immutable view of the dataset: a base segment and the delta as of one epoch.
The graph column value of a named graph is one past its section ordinal, and 0
is the default graph.
-/

namespace Graphy

structure Snapshot where
  base : Segment
  delta : Delta
  generation : Nat
  epoch : Nat

/-- The base segment's entries in the column space of a position. -/
def Segment.resolveColumn [InlineCodec] (base : Segment) (b : Bytes) (pos : TermPos) : Option Col :=
  match base.dict.resolveBytes b pos with
  | some v => some (if pos = .graph then ⟨v.tag, v.payload + 1⟩ else v)
  | none => none

/-- Intern a term the base lacks into the overlay, with the identity it already
has in the other subject/object space. -/
def internOverlay [InlineCodec] (base : Segment) (delta : Delta) (b : Bytes) (pos : TermPos) :
    Delta × Col :=
  let opp : Option TermPos :=
    match pos with
    | .subject => some .object
    | .object => some .subject
    | _ => none
  let aliasId := opp.bind fun opp =>
    match base.dict.resolveBytes b opp with
    | some v => some (TermId.rawTermId base.dict.shared.length v opp)
    | none =>
        (delta.resolve b opp).map fun v =>
          (delta.canon v opp).getD (TermId.rawTermId base.dict.shared.length v opp)
  delta.intern b pos aliasId

namespace Snapshot

variable [InlineCodec]

/-- Whether the snapshot contains this exact column-value quad. -/
def containsKey (snap : Snapshot) (key : QuadKey) : Bool :=
  match snap.delta.probe key snap.epoch with
  | some .add => true
  | some .tombstone => false
  | none => snap.base.containsQuad key

/-- Column value of a concise term: base, then overlay. -/
def resolveCol (snap : Snapshot) (b : Bytes) (pos : TermPos) : Option Col :=
  match snap.base.resolveColumn b pos with
  | some v => some v
  | none => snap.delta.resolve b pos

def resolveKey (snap : Snapshot) (q : QuadTerms) : Option QuadKey := do
  let s ← snap.resolveCol q.s .subject
  let p ← snap.resolveCol q.p .predicate
  let o ← snap.resolveCol q.o .object
  let g ←
    match q.g with
    | none => some (Col.dict 0)
    | some g => snap.resolveCol g .graph
  some ⟨s, p, o, g⟩

/-- Resolve a term or intern it into the overlay. -/
def internCol (snap : Snapshot) (b : Bytes) (pos : TermPos) : Snapshot × Col :=
  match snap.resolveCol b pos with
  | some v => (snap, v)
  | none =>
      let (delta, v) := internOverlay snap.base snap.delta b pos
      ({ snap with delta := delta }, v)

def internKey (snap : Snapshot) (q : QuadTerms) : Snapshot × QuadKey :=
  let (snap, s) := snap.internCol q.s .subject
  let (snap, p) := snap.internCol q.p .predicate
  let (snap, o) := snap.internCol q.o .object
  match q.g with
  | none => (snap, ⟨s, p, o, Col.dict 0⟩)
  | some g =>
      let (snap, g) := snap.internCol g .graph
      (snap, ⟨s, p, o, g⟩)

/-- Concise term of a column value; the default graph has none. -/
def decodeValue (snap : Snapshot) (v : Col) (pos : TermPos) : Option Bytes :=
  let d := snap.base.dict
  match pos with
  | .subject =>
      if v < Col.dict d.nSubjects then d.decodeBytes v .subject else snap.delta.decode v .subject
  | .predicate =>
      if v < Col.dict d.predicates.length then d.decodeBytes v .predicate
      else snap.delta.decode v .predicate
  | .graph =>
      if v = Col.dict 0 then none
      else if v ≤ Col.dict d.graphs.length then d.decodeBytes ⟨v.tag, v.payload - 1⟩ .graph
      else snap.delta.decode v .graph
  | .object =>
      if v.tag = 0 ∧ Col.dict d.nObjects ≤ v then snap.delta.decode v .object
      else d.decodeBytes v .object

/-- Concise terms of a quad key. -/
def decodeKey (snap : Snapshot) (k : QuadKey) : Option QuadTerms := do
  let s ← snap.decodeValue k.s .subject
  let p ← snap.decodeValue k.p .predicate
  let o ← snap.decodeValue k.o .object
  if k.g = Col.dict 0 then some ⟨s, p, o, none⟩
  else do
    let g ← snap.decodeValue k.g .graph
    some ⟨s, p, o, some g⟩

/-- The quads a snapshot shows, as concise terms. -/
def Contains (snap : Snapshot) (q : QuadTerms) : Prop :=
  ∃ k, snap.containsKey k = true ∧ snap.decodeKey k = some q

/-! ## The public id boundary -/

/-- Whether a subject or object value lies in the overlay. -/
def isOverlay (snap : Snapshot) (v : Col) : TermPos → Bool
  | .subject => decide (Col.dict snap.base.dict.nSubjects ≤ v)
  | .object => decide (v.tag = 0 ∧ Col.dict snap.base.dict.nObjects ≤ v)
  | _ => false

/-- Public id of a subject or object column value. -/
def nodeTermId (snap : Snapshot) (v : Col) (pos : TermPos) : TermId :=
  let raw := TermId.rawTermId snap.base.dict.shared.length v pos
  if snap.isOverlay v pos then (snap.delta.canon v pos).getD raw else raw

/-- Public id of a predicate value: an object or subject identity first. -/
def predicateTermId (snap : Snapshot) (v : Col) : TermId :=
  let raw := TermId.rawTermId snap.base.dict.shared.length v .predicate
  match snap.decodeValue v .predicate with
  | none => raw
  | some t =>
      match snap.resolveCol t .object with
      | some col => snap.nodeTermId col .object
      | none =>
          match snap.resolveCol t .subject with
          | some col => snap.nodeTermId col .subject
          | none => raw

/-- Public id of a column value in the given position: subjects and objects carry
their own identity, a predicate or graph name takes the first identity its term
has among objects, subjects and, for a graph, predicates. -/
def termId (snap : Snapshot) (v : Col) (pos : TermPos) : TermId :=
  match pos with
  | .subject => snap.nodeTermId v .subject
  | .object => snap.nodeTermId v .object
  | .predicate => snap.predicateTermId v
  | .graph =>
      let raw := TermId.rawTermId snap.base.dict.shared.length v .graph
      match snap.decodeValue v .graph with
      | none => raw
      | some t =>
          match snap.resolveCol t .object with
          | some col => snap.nodeTermId col .object
          | none =>
              match snap.resolveCol t .subject with
              | some col => snap.nodeTermId col .subject
              | none =>
                  match snap.resolveCol t .predicate with
                  | some col => snap.predicateTermId col
                  | none => raw

/-- Concise term of a public id. -/
def decode (snap : Snapshot) (id : TermId) : Option Bytes :=
  let n := snap.base.dict.shared.length
  match id with
  | .dict section_ o =>
      if o = 0 then none
      else
        match section_ with
        | .shared => snap.decodeValue (Col.dict (o - 1)) .subject
        | .subjects => snap.decodeValue (Col.dict (n + o - 1)) .subject
        | .predicates => snap.decodeValue (Col.dict (o - 1)) .predicate
        | .objects => snap.decodeValue (Col.dict (n + o - 1)) .object
        | .graphs => snap.decodeValue (Col.dict o) .graph
        | .tripleTerms => snap.decodeValue (Col.tripleTerm (o - 1)) .object
  | .raw c =>
      if c.tag = 7 ∨ (inlineConcise c).isSome then snap.base.dict.decodeBytes c .object else none

/-- Whether an ordinal is one of the `n` entries of a section. -/
def inRange (o n : Nat) : Bool := decide (1 ≤ o ∧ o ≤ n)

/-- Column value of a public id whose section belongs to the position. -/
def columnDirect (snap : Snapshot) (id : TermId) (pos : TermPos) : Option Col :=
  let d := snap.base.dict
  let n := d.shared.length
  match pos with
  | .subject =>
      match id.dictRef with
      | some (.shared, o) => if inRange o n then some (Col.dict (o - 1)) else none
      | some (.subjects, o) =>
          if inRange o (d.subjects.length + snap.delta.spaceLen .subject) then
            some (Col.dict (n + o - 1))
          else none
      | _ => none
  | .predicate =>
      match id.dictRef with
      | some (.predicates, o) =>
          if inRange o (d.predicates.length + snap.delta.spaceLen .predicate) then
            some (Col.dict (o - 1))
          else none
      | _ => none
  | .graph =>
      if id = TermId.defaultGraph then some (Col.dict 0)
      else
        match id.dictRef with
        | some (.graphs, o) =>
            if inRange o (d.graphs.length + snap.delta.spaceLen .graph) then some (Col.dict o)
            else none
        | _ => none
  | .object =>
      match id with
      | .raw c =>
          if c.tag = 7 then if c.payload < d.ttRecords.length then some c else none
          else if 1 ≤ c.tag ∧ c.tag ≤ 6 then some c
          else none
      | .dict .shared o => if inRange o n then some (Col.dict (o - 1)) else none
      | .dict .objects o =>
          if inRange o (d.objects.length + snap.delta.spaceLen .object) then
            some (Col.dict (n + o - 1))
          else none
      | .dict .. => none

/-- Column value of a public id in the given position. -/
def column (snap : Snapshot) (id : TermId) (pos : TermPos) : Option Col :=
  match snap.columnDirect id pos with
  | some col => some col
  | none =>
      match if Delta.aliased pos then snap.delta.aliasCol id pos else none with
      | some col => some col
      | none => (snap.decode id).bind fun t => snap.resolveCol t pos

end Snapshot

end Graphy
