import Graphy.Core.TermId
import Graphy.Misc.OrderedMap
import Graphy.Store.Segment

/-!
# The delta layer

Adds and tombstones over an immutable base: one ordered map per scan order from
the permuted quad to its epoch-stamped events, and one overlay id space per
position for terms the base does not have.
-/

namespace Graphy

inductive DeltaKind where
  | add
  | tombstone
deriving DecidableEq, Repr

/-- Events of one quad in the order they were recorded. -/
abbrev Events := List (Nat × DeltaKind)

/-- Index key: graph first, then the ordering's (x, y, z). -/
structure IndexKey where
  g : Col
  x : Col
  y : Col
  z : Col
deriving DecidableEq, Repr

namespace IndexKey

def toPair (k : IndexKey) : Col ×ₗ Col ×ₗ Col ×ₗ Col := toLex (k.g, toLex (k.x, toLex (k.y, k.z)))

theorem toPair_injective : Function.Injective toPair := by
  intro a b h
  have h1 := toLex.injective h
  simp only [Prod.mk.injEq] at h1
  have h2 := toLex.injective h1.2
  simp only [Prod.mk.injEq] at h2
  have h3 := toLex.injective h2.2
  cases a
  cases b
  simp_all

instance : LinearOrder IndexKey := LinearOrder.lift' toPair toPair_injective

end IndexKey

/-- Permute a canonical key into an ordering's index space. -/
def permute (order : Order) (q : QuadKey) : IndexKey :=
  let t := order.toXyz q.triple
  ⟨q.g, t.x, t.y, t.z⟩

/-- Inverse of `permute`. -/
def unpermute (order : Order) (k : IndexKey) : QuadKey :=
  let t := order.toSpo ⟨k.x, k.y, k.z⟩
  ⟨t.s, t.p, t.o, k.g⟩

/-- One position's overlay id space, above the base range and in arrival order. -/
structure OverlaySpace where
  /-- First overlay column value. -/
  base : Nat
  terms : List Bytes
  /-- Per entry, the id the term already holds in the other subject/object space. -/
  aliases : List (Option TermId)
deriving DecidableEq, Repr

namespace OverlaySpace

def new (base : Nat) : OverlaySpace := ⟨base, [], []⟩

def resolve (space : OverlaySpace) (b : Bytes) : Option Col :=
  (space.terms.idxOf? b).map fun i => Col.dict (space.base + i)

def intern (space : OverlaySpace) (b : Bytes) (aliasId : Option TermId) : OverlaySpace × Col :=
  match space.resolve b with
  | some v => (space, v)
  | none =>
      ({ space with terms := space.terms ++ [b], aliases := space.aliases ++ [aliasId] },
        Col.dict (space.base + space.terms.length))

def decode (space : OverlaySpace) (v : Col) : Option Bytes :=
  if v.tag = 0 ∧ space.base ≤ v.payload then space.terms[v.payload - space.base]? else none

end OverlaySpace

/-- Everything the writer mutates. -/
structure Delta where
  indexes : List (Order × OrderedMap IndexKey Events)
  subj : OverlaySpace
  pred : OverlaySpace
  obj : OverlaySpace
  graph : OverlaySpace
  /-- Canonical id to the positional overlay value of an aliased entry. -/
  aliasCols : List ((TermId × TermPos) × Col)
  /-- Live event count. -/
  events : Nat
  /-- Live tombstone count. -/
  tombstones : Nat

namespace Delta

/-- An empty delta above the base's column ranges. -/
def new (orders : List Order) (subjects predicates objects graphs : Nat) : Delta where
  indexes := orders.map fun order => (order, OrderedMap.empty)
  subj := OverlaySpace.new subjects
  pred := OverlaySpace.new predicates
  obj := OverlaySpace.new objects
  graph := OverlaySpace.new graphs
  aliasCols := []
  events := 0
  tombstones := 0

def space (d : Delta) : TermPos → OverlaySpace
  | .subject => d.subj
  | .predicate => d.pred
  | .object => d.obj
  | .graph => d.graph

def setSpace (d : Delta) (pos : TermPos) (s : OverlaySpace) : Delta :=
  match pos with
  | .subject => { d with subj := s }
  | .predicate => { d with pred := s }
  | .object => { d with obj := s }
  | .graph => { d with graph := s }

/-- Column value of an overlay term, if interned. -/
def resolve (d : Delta) (b : Bytes) (pos : TermPos) : Option Col := (d.space pos).resolve b

/-- Concise bytes of an overlay column value. -/
def decode (d : Delta) (v : Col) (pos : TermPos) : Option Bytes := (d.space pos).decode v

/-- Whether the position shares its identities with the other of the pair. -/
def aliased : TermPos → Bool
  | .subject | .object => true
  | _ => false

/-- Intern a term the base lacks; only subject and object entries carry an alias. -/
def intern (d : Delta) (b : Bytes) (pos : TermPos) (aliasId : Option TermId) : Delta × Col :=
  let aliasId := if aliased pos then aliasId else none
  let (space, v) := (d.space pos).intern b aliasId
  let d := d.setSpace pos space
  match aliasId with
  | some id => ({ d with aliasCols := ((id, pos), v) :: d.aliasCols }, v)
  | none => (d, v)

/-- Canonical id of an overlay value whose identity lives in the other space. -/
def canon (d : Delta) (v : Col) (pos : TermPos) : Option TermId :=
  if aliased pos then
    let space := d.space pos
    if v.tag = 0 ∧ space.base ≤ v.payload then (space.aliases[v.payload - space.base]?).join else none
  else none

/-- Positional overlay value of a canonical id, the inverse of `canon`. -/
def aliasCol (d : Delta) (id : TermId) (pos : TermPos) : Option Col :=
  (d.aliasCols.find? fun e => decide (e.1 = (id, pos))).map Prod.snd

/-- Append one event to the list of its key. -/
def pushEvent (epoch : Nat) (order : Order) (m : OrderedMap IndexKey Events)
    (entry : QuadKey × DeltaKind) : OrderedMap IndexKey Events :=
  m.alter (permute order entry.1) fun events => events.getD [] ++ [(epoch, entry.2)]

/-- Record events at `epoch` in every index. -/
def record (d : Delta) (entries : List (QuadKey × DeltaKind)) (epoch : Nat) : Delta :=
  { d with
    indexes := d.indexes.map fun e => (e.1, entries.foldl (pushEvent epoch e.1) e.2)
    events := d.events + entries.length
    tombstones := d.tombstones + entries.countP fun e => decide (e.2 = .tombstone) }

/-- The latest event at or below an epoch. -/
def effective (events : Events) (epoch : Nat) : Option DeltaKind :=
  (events.reverse.find? fun e => decide (e.1 ≤ epoch)).map Prod.snd

/-- Effective kind of one exact quad at `epoch`. -/
def probe (d : Delta) (key : QuadKey) (epoch : Nat) : Option DeltaKind :=
  match d.indexes.head? with
  | none => none
  | some (order, m) => (m.get? (permute order key)).bind fun events => effective events epoch

/-- Every overlay term of a position with its column value. -/
def overlayTerms (d : Delta) (pos : TermPos) : List (Bytes × Col) :=
  (d.space pos).terms.mapIdx fun i b => (b, Col.dict ((d.space pos).base + i))

def spaceLen (d : Delta) (pos : TermPos) : Nat := (d.space pos).terms.length

/-- Add an index for another ordering, backfilled from the first with every event
at its own epoch. -/
def addOrder (d : Delta) (order : Order) : Delta :=
  if d.indexes.any fun e => decide (e.1 = order) then d
  else
    match d.indexes.head? with
    | none => d
    | some (order0, m) =>
        let filled := m.entries.foldl
          (fun acc e => acc.alter (permute order (unpermute order0 e.1)) fun _ => e.2)
          OrderedMap.empty
        { d with indexes := d.indexes ++ [(order, filled)] }

/-- Whether an event merely restates base membership. -/
def restatesBase (kind : DeltaKind) (baseHas : Bool) : Bool :=
  match kind with
  | .add => baseHas
  | .tombstone => !baseHas

/-- An empty list drops its key. -/
def keepEvents : Events → Option Events
  | [] => none
  | events => some events

/-- What readers at or above `minEpoch` can still observe of one event list: the
events from the effective one on, without it when it restates base membership. -/
def gcEvents (minEpoch : Nat) (baseHas : Bool) (events : Events) : Option Events :=
  let cut := lowerBound (fun i => (events[i]?).any fun e => decide (e.1 ≤ minEpoch))
    events.length 0 events.length
  if cut = 0 then some events
  else
    match events[cut - 1]? with
    | none => some events
    | some (_, kind) => keepEvents (events.drop (if restatesBase kind baseHas then cut else cut - 1))

/-- Events of the first index, for the counters. -/
def countEvents (indexes : List (Order × OrderedMap IndexKey Events)) : Nat :=
  match indexes.head? with
  | none => 0
  | some (_, m) => (m.entries.map fun e => e.2.length).sum

def countTombstones (indexes : List (Order × OrderedMap IndexKey Events)) : Nat :=
  match indexes.head? with
  | none => 0
  | some (_, m) =>
      (m.entries.map fun e => e.2.countP fun ev => decide (ev.2 = .tombstone)).sum

/-- Epoch GC: compact every event list to what readers at or above `minEpoch` can
observe; empty lists drop their key. -/
def gc (d : Delta) (minEpoch : Nat) (inBase : QuadKey → Bool) : Delta :=
  let indexes := d.indexes.map fun e =>
    (e.1, e.2.filterMapVal fun k events => gcEvents minEpoch (inBase (unpermute e.1 k)) events)
  { d with
    indexes := indexes
    events := countEvents indexes
    tombstones := countTombstones indexes }

/-- Every event with an epoch in `(after, upto]`, grouped per key in list order. -/
def collectSuffix (d : Delta) (after upto : Nat) : List (QuadKey × DeltaKind × Nat) :=
  match d.indexes.head? with
  | none => []
  | some (order, m) =>
      m.entries.flatMap fun e =>
        ((e.2.dropWhile fun ev => decide (ev.1 ≤ after)).takeWhile
          fun ev => decide (ev.1 ≤ upto)).map fun ev => (unpermute order e.1, ev.2, ev.1)

/-- One effective kind per key with an event at or below `epoch`. -/
def collectEffective (d : Delta) (epoch : Nat) : List (QuadKey × DeltaKind) :=
  match d.indexes.head? with
  | none => []
  | some (order, m) =>
      m.entries.filterMap fun e =>
        (effective e.2 epoch).map fun kind => (unpermute order e.1, kind)

/-- The index of an ordering. -/
def index (d : Delta) (order : Order) : Option (OrderedMap IndexKey Events) :=
  (d.indexes.find? fun e => decide (e.1 = order)).map Prod.snd

end Delta

/-! ## Ranges -/

/-- Largest column word. -/
def Col.max : Col := ⟨15, 2 ^ 60 - 1⟩

namespace IndexKey

/-- Component `n` of the key. -/
def get (k : IndexKey) : Nat → Col
  | 0 => k.g
  | 1 => k.x
  | 2 => k.y
  | _ => k.z

/-- The key with its component `n` one higher. -/
def bump (k : IndexKey) : Nat → IndexKey
  | 0 => { k with g := ⟨k.g.tag, k.g.payload + 1⟩ }
  | 1 => { k with x := ⟨k.x.tag, k.x.payload + 1⟩ }
  | 2 => { k with y := ⟨k.y.tag, k.y.payload + 1⟩ }
  | _ => { k with z := ⟨k.z.tag, k.z.payload + 1⟩ }

/-- The first `n` components, then zeros. -/
def keep (k : IndexKey) : Nat → IndexKey
  | 0 => ⟨Col.dict 0, Col.dict 0, Col.dict 0, Col.dict 0⟩
  | 1 => ⟨k.g, Col.dict 0, Col.dict 0, Col.dict 0⟩
  | 2 => ⟨k.g, k.x, Col.dict 0, Col.dict 0⟩
  | 3 => ⟨k.g, k.x, k.y, Col.dict 0⟩
  | _ => k

end IndexKey

/-- Which components a pattern binds, in index order. -/
structure Bound where
  g : Bool
  x : Bool
  y : Bool
  z : Bool
deriving DecidableEq, Repr

/-- Number of leading bound components. -/
def Bound.prefixLen (b : Bound) : Nat := ([b.g, b.x, b.y, b.z].takeWhile id).length

/-- Where a pattern's entries lie in an index. -/
structure RangePlan where
  want : IndexKey
  bound : Bound
  lo : IndexKey
  /-- Exclusive end, unless the prefix is empty or already at the top. -/
  hi : Option IndexKey
deriving DecidableEq, Repr

/-- A value of a component that marks it as bound. -/
def flag (v : Option Col) : Col := if v.isSome then Col.dict 1 else Col.dict 0

def rangePlan (order : Order) (pat : Pattern) : RangePlan :=
  let zero := Col.dict 0
  let want := permute order
    ⟨pat.s.getD zero, pat.p.getD zero, pat.o.getD zero, pat.g.getD zero⟩
  let flags := order.toXyz ⟨flag pat.s, flag pat.p, flag pat.o⟩
  let bound : Bound := ⟨pat.g.isSome, decide (flags.x = Col.dict 1), decide (flags.y = Col.dict 1),
    decide (flags.z = Col.dict 1)⟩
  let n := bound.prefixLen
  { want := want
    bound := bound
    lo := want.keep n
    hi :=
      if n = 0 then none
      else if want.get (n - 1) = Col.max then none
      else some ((want.bump (n - 1)).keep n) }

/-- Whether a key has the bound components of the plan. -/
def RangePlan.admits (plan : RangePlan) (k : IndexKey) : Bool :=
  (!plan.bound.g || decide (k.g = plan.want.g)) && (!plan.bound.x || decide (k.x = plan.want.x)) &&
    (!plan.bound.y || decide (k.y = plan.want.y)) && (!plan.bound.z || decide (k.z = plan.want.z))

/-- The key that scans of an ordering ascend in. -/
def Order.scanKey (order : Order) (q : QuadKey) : Xyz ×ₗ Col := toLex (order.toXyz q.triple, q.g)

namespace Delta

/-- Entries that match a pattern with the kind a reader at `epoch` sees, ascending
in the ordering's scan key.  The index runs graph first, so entries of more than
one graph are sorted again. -/
def collectRange (d : Delta) (order : Order) (pat : Pattern) (epoch : Nat) :
    List (QuadKey × DeltaKind) :=
  match d.index order with
  | none => []
  | some m =>
      let plan := rangePlan order pat
      let out := (m.range plan.lo plan.hi).filterMap fun e =>
        if plan.admits e.1 then
          (effective e.2 epoch).map fun kind => (unpermute order e.1, kind)
        else none
      if pat.g.isNone then
        out.insertionSort fun a b => order.scanKey a.1 ≤ order.scanKey b.1
      else out

end Delta

end Graphy
