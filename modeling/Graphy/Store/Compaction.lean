import Graphy.Store.Capture
import Graphy.Store.System

/-!
# Compaction of a store without a directory

A compaction folds what readers of the tip can observe into a fresh delta over the
same base: one add per shown quad the base lacks, one tombstone per base quad that is
gone, and an overlay of the terms these name.  Values of the base and inline values
carry over, overlay values are interned again.
-/

namespace Graphy

/-- Fresh overlay value of an old one, per position. -/
abbrev Memo := TermPos → Col → Option Col

def Memo.empty : Memo := fun _ _ => none

def Memo.insert (memo : Memo) (pos : TermPos) (v w : Col) : Memo :=
  fun p u => if p = pos ∧ u = v then some w else memo p u

/-- Where the fold of a delta stands. -/
structure EphemeralFold where
  fresh : Delta
  memo : Memo
  entries : List (QuadKey × DeltaKind)

/-- Whether a column value is an overlay one; a tagged object value is an identity of
its own. -/
def Segment.overlay (base : Segment) (v : Col) : TermPos → Bool
  | .subject => decide (Col.dict base.dict.nSubjects ≤ v)
  | .predicate => decide (Col.dict base.dict.predicates.length ≤ v)
  | .object => decide (v.tag = 0 ∧ Col.dict base.dict.nObjects ≤ v)
  | .graph => decide (Col.dict (base.dict.graphs.length + 1) ≤ v)

/-- Whether any column of a key is an overlay value. -/
def Segment.overlaid (base : Segment) (k : QuadKey) : Bool :=
  base.overlay k.s .subject || base.overlay k.p .predicate || base.overlay k.o .object ||
    base.overlay k.g .graph

variable [InlineCodec]

namespace EphemeralFold

/-- Fresh value of a column; `none` is the panic of an overlay value without a term. -/
def column (tip : Snapshot) (st : EphemeralFold) (v : Col) (pos : TermPos) :
    Option (EphemeralFold × Col) :=
  if tip.base.overlay v pos then
    match st.memo pos v with
    | some w => some (st, w)
    | none =>
        (tip.delta.decode v pos).map fun t =>
          let (fresh, w) := internOverlay tip.base st.fresh t pos
          ({ st with fresh := fresh, memo := st.memo.insert pos v w }, w)
  else some (st, v)

def key (tip : Snapshot) (st : EphemeralFold) (k : QuadKey) : Option (EphemeralFold × QuadKey) := do
  let (st, s) ← st.column tip k.s .subject
  let (st, p) ← st.column tip k.p .predicate
  let (st, o) ← st.column tip k.o .object
  let (st, g) ← st.column tip k.g .graph
  return (st, ⟨s, p, o, g⟩)

def push (st : EphemeralFold) (e : QuadKey × DeltaKind) : EphemeralFold :=
  { st with entries := st.entries ++ [e] }

/-- Fold one effective event: a tombstone matters for a base quad only, an add for any
other. -/
def step (tip : Snapshot) (st : EphemeralFold) (e : QuadKey × DeltaKind) : Option EphemeralFold :=
  match e.2 with
  | .tombstone =>
      some (if !tip.base.overlaid e.1 && tip.base.containsQuad e.1 then st.push e else st)
  | .add =>
      if tip.base.overlaid e.1 then do
        let (st, k) ← st.key tip e.1
        return st.push (k, .add)
      else some (if tip.base.containsQuad e.1 then st else st.push e)

end EphemeralFold

namespace Snapshot

/-- Fold the effective events of the tip into a fresh delta over its base. -/
def foldEphemeralDelta (tip : Snapshot) : Option Snapshot := do
  let d := tip.base.dict
  let fresh := Delta.new tip.base.scanOrders d.nSubjects d.predicates.length d.nObjects
    (d.graphs.length + 1)
  let st ← (tip.delta.collectEffective tip.epoch).foldlM (EphemeralFold.step tip)
    ⟨fresh, Memo.empty, []⟩
  return { tip with
    delta := if st.entries = [] then st.fresh else st.fresh.record st.entries tip.epoch }

/-- The snapshot a group of commits publishes when its log write succeeds. -/
def commitGroup (snap : Snapshot) (hard : Nat) (members : List Member) : Snapshot :=
  let (last, _, outcomes) := planAll snap (GroupPlan.start snap hard) members
  Capture.recordPlanned last outcomes

end Snapshot

/-- A store without a directory is one whose path is empty. -/
structure EphemeralStore where
  snap : Snapshot
  dir : String
  poisoned : Bool
  budgetSoft : Nat
  /-- Events the last compaction left. -/
  compactFloor : Nat
  mergeNeeded : Bool

namespace EphemeralStore

/-- A store over a base, opened with a captured log. -/
def opened (snap : Snapshot) (budgetSoft : Nat) : EphemeralStore where
  snap := snap
  dir := ""
  poisoned := false
  budgetSoft := budgetSoft
  compactFloor := 0
  mergeNeeded := false

/-- Run a group of commits. -/
def commit (s : EphemeralStore) (hard : Nat) (members : List Member) : EphemeralStore :=
  let snap := s.snap.commitGroup hard members
  { s with
    snap := snap
    mergeNeeded := s.mergeNeeded ||
      (decide (s.snap.epoch < snap.epoch) && decide (s.budgetSoft < snap.delta.events)) }

/-- Fold the delta; `merging` says whether the merge lock is taken. -/
def compactEphemeral (s : EphemeralStore) (merging : Bool) :
    Except StoreError (Option EphemeralStore) :=
  if s.dir ≠ "" then
    .error (.corrupt "compact_ephemeral on a directory-backed store — use merge/compact")
  else if s.poisoned then .error poisonedError
  else if merging then .error (.corrupt "a merge is already running on this store")
  else
    .ok (s.snap.foldEphemeralDelta.map fun snap =>
      { s with
        snap := snap
        compactFloor := snap.delta.events
        mergeNeeded := decide (s.budgetSoft < snap.delta.events) })

end EphemeralStore

namespace Snapshot

/-- A term has one public id across subject and object position. -/
def Unified (snap : Snapshot) : Prop :=
  ∀ t v w, snap.resolveCol t .subject = some v → snap.resolveCol t .object = some w →
    snap.termId v .subject = snap.termId w .object

/-- A member refused for the event budget. -/
def RefusedForBudget (o : PlanOutcome) : Prop :=
  ∃ events limit, o = .failed (budgetExhausted events limit)

/-- A group of commits and the hard event budget of its time. -/
structure Round where
  hard : Nat
  members : List Member

/-- What planning makes of the members of a round. -/
def outcomes (snap : Snapshot) (round : Round) : List PlanOutcome :=
  (planAll snap (GroupPlan.start snap round.hard) round.members).2.2.map Prod.fst

/-- The snapshot after rounds of commits. -/
def rounds (snap : Snapshot) : List Round → Snapshot
  | [] => snap
  | round :: rest => (snap.commitGroup round.hard round.members).rounds rest

/-- Over the rounds the first store refuses for its budget only what the second refuses
too. -/
def RefusesOnly : Snapshot → Snapshot → List Round → Prop
  | _, _, [] => True
  | a, b, round :: rest =>
      List.Forall₂ (fun o o' => RefusedForBudget o → RefusedForBudget o')
          (a.outcomes round) (b.outcomes round) ∧
        RefusesOnly (a.commitGroup round.hard round.members)
          (b.commitGroup round.hard round.members) rest

/-- What nobody can tell apart about a tip and its compaction.  A compaction relieves the
event budget: later commits give the same datasets as long as what the tip's budget refuses
is refused after the compaction too, which then refuses nothing more. -/
structure Invisible (tip snap : Snapshot) : Prop where
  base : snap.base = tip.base
  generation : snap.generation = tip.generation
  epoch : snap.epoch = tip.epoch
  shown : ∀ q, snap.Contains q ↔ tip.Contains q
  unified : snap.Unified
  /-- The values of visible quads that stand for one term have one public id. -/
  oneId : ∀ k k', snap.containsKey k = true → snap.containsKey k' = true →
    snap.decodeValue k.s .subject = snap.decodeValue k'.o .object →
      snap.termId k.s .subject = snap.termId k'.o .object
  single : ∀ e ∈ snap.delta.indexes, ∀ c ∈ e.2.entries, c.2.length ≤ 1
  later : ∀ coming, RefusesOnly tip snap coming →
    RefusesOnly snap tip coming ∧
      ∀ q, (snap.rounds coming).Contains q ↔ (tip.rounds coming).Contains q

end Snapshot

end Graphy
