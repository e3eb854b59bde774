import Graphy.Misc.Clients
import Graphy.Misc.SetUpdate
import Graphy.Store.Group

/-!
# Write requests

What SPARQL Update operations and the graph store protocol compute from a snapshot.
Every request but those that answer early ends in one `Store::apply` of its deletes and
adds.  The pattern evaluator and the document loader are left open.
-/

namespace Graphy

/-- What a snapshot shows: its quads, and the graph names its dictionaries hold. -/
structure View where
  quads : Set QuadTerms
  /-- Names may outlive the quads of their graph. -/
  named : Set Bytes
  covers : ∀ q ∈ quads, ∀ g, q.g = some g → g ∈ named

/-- One `Store::apply`, alone in its group: planned, and recorded at the next epoch when it changes
something. -/
def Snapshot.applyAlone [InlineCodec] (snap : Snapshot) (u : Update QuadTerms) : Except StoreError Snapshot := do
  let st ← commitCore snap u.dels u.adds Carry.none
  return if st.entries = [] then st.snap else st.snap.record ⟨st.entries, snap.epoch + 1, []⟩

/-- A list holds exactly the elements with a property, each once: what a scan collects, or a
set that is read out. -/
def Lists {α : Type} (l : List α) (p : α → Prop) : Prop := l.Nodup ∧ ∀ a, a ∈ l ↔ p a

/-- Collect under a condition, nothing without it. -/
def ListsIf {α : Type} (c : Prop) (l : List α) (p : α → Prop) : Prop :=
  (c → Lists l p) ∧ (¬ c → l = [])

/-- Whether a graph has a column; the default graph always has. -/
def View.HasGraph (v : View) (g : Option Bytes) : Prop := ∀ iri, g = some iri → iri ∈ v.named

/-- The quads of one graph. -/
def View.graph (v : View) (g : Option Bytes) : Set QuadTerms := {q | q ∈ v.quads ∧ q.g = g}

/-! ## Templates -/

/-- A component of a quad template; a template blank node is named by its variable. -/
inductive Pat where
  | term (t : Bytes)
  | var (v : Nat)
  | blank (v : Nat)
  | triple (s p o : Pat)
deriving DecidableEq, Repr

/-- A template quad. -/
structure QuadPat where
  g : Option Pat
  s : Pat
  p : Pat
  o : Pat
deriving DecidableEq, Repr

/-- Decoded bindings of a solution. -/
abbrev Row := Nat → Option Bytes

/-- Whether the bytes decode to an IRI, or to a blank node where one may stand. -/
def decodesToNode (b : Bytes) (allowBlank : Bool) : Bool :=
  match Concise.decode b with
  | .ok (.iri _) => true
  | .ok (.blankNode _) => allowBlank
  | _ => false

/-- Instantiate one template component; `none` where a variable is unbound or a triple has
a component of the wrong kind. -/
def Pat.inst (row : Row) (labels : Nat → Bytes) : Pat → Option Bytes
  | .term t => some t
  | .var v => row v
  | .blank v => some (labels v)
  | .triple s p o =>
      match s.inst row labels, p.inst row labels, o.inst row labels with
      | some s, some p, some o =>
          if decodesToNode s true && decodesToNode p false then
            some (Concise.encodeTripleTerm s p o)
          else none
      | _, _, _ => none

/-- Whether the term opens as an IRI or a blank node. -/
def isNode (b : Bytes) : Bool := decide (sigilKind b = .iri ∨ sigilKind b = .blank)

/-- Instantiate a template quad; a quad without GRAPH goes to the default of the operation. -/
def QuadPat.inst (row : Row) (labels : Nat → Bytes) (defaultGraph : Option Bytes) (q : QuadPat) :
    Option QuadTerms := do
  let g ←
    match q.g with
    | none => some defaultGraph
    | some g => ((g.inst row labels).filter isNode).map some
  let s ← (q.s.inst row labels).filter isNode
  let p ← (q.p.inst row labels).filter fun p => decide (sigilKind p = .iri)
  let o ← q.o.inst row labels
  some ⟨s, p, o, g⟩

/-- Quads that templates instantiate to, under the labels of each row. -/
def Instantiated (quads : List QuadPat) (rows : List Row) (labels : Nat → Nat → Bytes)
    (defaultGraph : Option Bytes) (q : QuadTerms) : Prop :=
  ∃ row ∈ rows.zipIdx, ∃ pat ∈ quads, pat.inst row.1 (labels row.2) defaultGraph = some q

/-! ## Fresh blank labels -/

/-- Labels a request mints, named by what they stand for: a label of its own data, or a
template variable in a row of its deletes or inserts. -/
structure Labels where
  data : Bytes → Bytes
  row : Bool → Nat → Nat → Bytes

def Term.hasBlank : Term → Bool
  | .atom b => decide (sigilKind b = .blank)
  | .tripleTerm s _ o => decide (sigilKind s = .blank) || o.hasBlank

/-- Whether there is a blank node anywhere in a term. -/
def hasBnode (b : Bytes) : Bool :=
  decide (sigilKind b = .blank) || ((Term.read b).map Term.hasBlank).getD false

/-- Rewrite the blank nodes of a term taken apart. -/
def Term.freshen (labels : Labels) : Term → Term
  | .atom b => .atom (if sigilKind b = .blank then labels.data b else b)
  | .tripleTerm s p o =>
      .tripleTerm (if sigilKind s = .blank then labels.data s else s) p (o.freshen labels)

/-- Rewrite blank nodes to fresh labels, also inside triple terms, which are encoded again. -/
def freshen (labels : Labels) (b : Bytes) : Bytes :=
  if sigilKind b = .blank then labels.data b
  else
    match Term.read b with
    | some (.tripleTerm s p o) => ((Term.tripleTerm s p o).freshen labels).bytes
    | _ => b

def freshenQuad (labels : Labels) (q : QuadTerms) : QuadTerms :=
  { q with s := freshen labels q.s, o := freshen labels q.o }

/-! ## Update operations -/

inductive GraphTargetT where
  | default
  | named (iri : Bytes)
  | allNamed
  | all
deriving DecidableEq, Repr

/-- A triple of a document. -/
structure TripleTerms where
  s : Bytes
  p : Bytes
  o : Bytes
deriving DecidableEq, Repr

def TripleTerms.inGraph (t : TripleTerms) (g : Option Bytes) : QuadTerms := ⟨t.s, t.p, t.o, g⟩

/-- How the destination of ADD, MOVE and COPY changes. -/
inductive Transfer where
  | add
  | move
  | copy
deriving DecidableEq, Repr

inductive UpdateOpT (Algebra : Type) where
  | insertData (quads : List QuadTerms)
  | deleteData (quads : List QuadTerms)
  | deleteWhere (quads : List QuadPat)
  | modify (within : Option Bytes) (delete insert : List QuadPat) (using_ : List (Bool × Bytes))
      (pattern : Algebra)
  | load (silent : Bool) (source : Bytes) (into : Option Bytes)
  | clear (silent : Bool) (target : GraphTargetT)
  | drop (silent : Bool) (target : GraphTargetT)
  | create
  | transfer (kind : Transfer) (silent : Bool) (source dest : Option Bytes)

/-- What a pattern is evaluated for. -/
inductive Where (Algebra : Type) where
  | quads (quads : List QuadPat)
  | pattern (within : Option Bytes) (using_ : List (Bool × Bytes)) (pattern : Algebra)

/-- The evaluator and the document loader. -/
structure Engine (Algebra : Type) where
  /-- Solutions a pattern can have on a view, their fresh blank nodes labelled. -/
  rows : Where Algebra → View → Labels → List Row → Prop
  /-- Documents a source can give; `none` is a failure. -/
  load : Bytes → Option (List TripleTerms) → Prop

section Operations

variable {Algebra : Type}

/-- What an operation that succeeds does after it took its snapshot: the batch it applies,
or nothing. -/
def executeOp (engine : Engine Algebra) (labels : Labels) (snap : View)
    (op : UpdateOpT Algebra) (plan : Option (Update QuadTerms)) : Prop :=
  match op with
  | .insertData quads =>
      plan = some ⟨[], if quads.any fun q => hasBnode q.s || hasBnode q.o
        then quads.map (freshenQuad labels) else quads⟩
  | .deleteData quads => plan = some ⟨quads, []⟩
  | .deleteWhere quads =>
      ∃ rows dels, engine.rows (.quads quads) snap labels rows ∧
        Lists dels (Instantiated quads rows (labels.row true) none) ∧ plan = some ⟨dels, []⟩
  | .modify within delete insert using_ pattern =>
      ∃ rows dels adds, engine.rows (.pattern within using_ pattern) snap labels rows ∧
        Lists dels (Instantiated delete rows (labels.row true) within) ∧
        Lists adds (Instantiated insert rows (labels.row false) within) ∧ plan = some ⟨dels, adds⟩
  | .load silent source into =>
      (∃ triples, engine.load source (some triples) ∧
        plan = some ⟨[], triples.map fun t => freshenQuad labels (t.inGraph into)⟩) ∨
      (engine.load source none ∧ silent = true ∧ plan = none)
  | .clear silent target | .drop silent target =>
      match target with
      | .default => ∃ dels, Lists dels (· ∈ snap.graph none) ∧ plan = some ⟨dels, []⟩
      | .named iri =>
          (iri ∉ snap.named ∧ silent = true ∧ plan = none) ∨
            (iri ∈ snap.named ∧ ∃ dels, Lists dels (· ∈ snap.graph (some iri)) ∧
              plan = some ⟨dels, []⟩)
      | .allNamed =>
          ∃ dels, Lists dels (fun q => q ∈ snap.quads ∧ q.g ≠ none) ∧ plan = some ⟨dels, []⟩
      | .all => ∃ dels, Lists dels (· ∈ snap.quads) ∧ plan = some ⟨dels, []⟩
  | .create => plan = none
  | .transfer kind silent source dest =>
      if source = dest then plan = none
      else (¬ snap.HasGraph source ∧ silent = true ∧ plan = none) ∨
        (snap.HasGraph source ∧ ∃ src old, Lists src (· ∈ snap.graph source) ∧
          ListsIf (kind ≠ .add ∧ snap.HasGraph dest) old (· ∈ snap.graph dest) ∧
          plan = some ⟨old ++ if kind = .move then src else [],
            src.map fun q => { q with g := dest }⟩)

/-! ## Graph store protocol -/

/-- PUT replaces, POST merges, DELETE clears. -/
inductive Method where
  | put
  | post
  | delete
deriving DecidableEq, Repr

/-- Quads the method adds: the parsed body, nothing for DELETE. -/
def Method.adds {α : Type} (method : Method) (body : List α) : List α :=
  if method = .delete then [] else body

/-- The dataset addressed. -/
def datasetWrite (snap : View) (method : Method) (body : List QuadTerms)
    (plan : Option (Update QuadTerms)) : Prop :=
  ∃ dels, ListsIf (method = .put ∨ method = .delete) dels (· ∈ snap.quads) ∧
    plan = some ⟨dels, method.adds body⟩

/-- One graph addressed; a graph the dictionaries do not hold has nothing to delete. -/
def gspWrite (snap : View) (target : Option Bytes) (method : Method) (body : List TripleTerms)
    (plan : Option (Update QuadTerms)) : Prop :=
  ∃ dels, ListsIf ((method = .put ∨ method = .delete) ∧ snap.HasGraph target) dels
      (· ∈ snap.graph target) ∧
    plan = if method = .delete ∧ dels = [] then none
      else some ⟨dels, (method.adds body).map fun t => t.inGraph target⟩

/-! ## The service -/

inductive Request (Algebra : Type) where
  | update (op : UpdateOpT Algebra)
  | dataset (method : Method) (body : List QuadTerms)
  | graph (target : Option Bytes) (method : Method) (body : List TripleTerms)

/-- What a request that succeeds does after it took its snapshot. -/
def Request.plans (engine : Engine Algebra) (labels : Labels) (snap : View) :
    Request Algebra → Option (Update QuadTerms) → Prop
  | .update op => executeOp engine labels snap op
  | .dataset method body => datasetWrite snap method body
  | .graph target method body => gspWrite snap target method body

end Operations

/-! ## What requests read

A quad of a graph, or whether the dictionaries hold a graph name. -/

abbrev Cell := QuadTerms ⊕ Bytes

/-- The cells a view holds. -/
def View.cells (v : View) : Set Cell := {k | k.elim (· ∈ v.quads) (· ∈ v.named)}

namespace Cell

/-- The quads of some graphs. -/
def quadsOf (p : Option Bytes → Prop) : Set Cell := {k | ∃ q, k = .inl q ∧ p q.g}

/-- The quads of a graph. -/
def graph (g : Option Bytes) : Set Cell := quadsOf (· = g)

/-- The name of a graph. -/
def name (g : Option Bytes) : Set Cell := {k | ∃ iri, g = some iri ∧ k = .inr iri}

end Cell

section Reads

variable {Algebra : Type}

/-- Cells an operation reads: a pattern may read everything. -/
def UpdateOpT.reads : UpdateOpT Algebra → Set Cell
  | .insertData _ | .deleteData _ | .load .. | .create => ∅
  | .deleteWhere _ | .modify .. => Set.univ
  | .clear _ target | .drop _ target =>
      match target with
      | .default => Cell.graph none
      | .named iri => Cell.graph (some iri) ∪ Cell.name (some iri)
      | .allNamed => Cell.quadsOf (· ≠ none)
      | .all => Cell.quadsOf fun _ => True
  | .transfer kind _ source dest =>
      if source = dest then ∅
      else Cell.graph source ∪ Cell.name source ∪ if kind = .add then ∅ else Cell.graph dest

/-- Cells a request reads; a POST reads nothing. -/
def Request.reads : Request Algebra → Set Cell
  | .update op => op.reads
  | .dataset method _ => if method = .post then ∅ else Cell.quadsOf fun _ => True
  | .graph target method _ => if method = .post then ∅ else Cell.graph target

end Reads

/-- What a batch leaves of a cell, over the quads the dictionary stores. -/
def writesCell [InlineCodec] (dict : Dictionary) (u : Update QuadTerms) : Cell → Option Bool
  | .inl q => (u.map (QuadTerms.named dict)).write q
  | .inr g => if ∃ q ∈ u.adds, q.g = some g then some true else none

end Graphy
