import Graphy.Store.Wal

/-!
# Commit groups

The leader plans every transaction of its group, each seeing the effects of the
ones before it, writes them to the log as one unit, and then records and answers
them in epoch order.  A transaction that changes nothing is answered while the
group is still being planned, with the snapshot current at that moment.
-/

namespace Graphy

/-- The transaction of one `applyWith` call. -/
structure Tx where
  dels : List QuadTerms
  adds : List QuadTerms
  durability : Durability
deriving DecidableEq, Repr

def Tx.update (tx : Tx) : Update QuadTerms := ⟨tx.dels, tx.adds⟩

/-- What planning a group has accumulated. -/
structure GroupPlan where
  /-- Hard event budget, read when the group starts. -/
  hard : Nat
  carry : Carry
  epoch : Nat
  events : Nat
  strictest : Durability
  /-- Frames buffered in the log. -/
  frames : List WalRecord

/-- A planned transaction: its delta entries and the epoch it will get. -/
structure PlannedTx where
  entries : List (QuadKey × DeltaKind)
  epoch : Nat
  /-- The frames it has buffered. -/
  frames : List WalRecord
deriving DecidableEq

inductive PlanOutcome where
  | planned (tx : PlannedTx)
  | unchanged
  | failed (e : StoreError)
deriving DecidableEq

/-- The plan a group starts with. -/
def GroupPlan.start (snap : Snapshot) (hard : Nat) : GroupPlan where
  hard := hard
  carry := Carry.none
  epoch := snap.epoch
  events := snap.delta.events
  strictest := .relaxed
  frames := []

/-- The error of a commit over the hard budget. -/
def budgetExhausted (events hard : Nat) : StoreError :=
  .corrupt s!"delta budget exhausted ({events} events ≥ hard limit {hard}); merge required"

variable [InlineCodec]

/-- Plan one transaction of a group over its start snapshot; `merger` says whether a
background merger is attached. -/
def planOne (merger : Bool) (snap : Snapshot) (plan : GroupPlan) (tx : Tx) :
    Snapshot × GroupPlan × PlanOutcome :=
  if plan.hard ≤ plan.events ∧ merger = false then
    (snap, plan, .failed (budgetExhausted plan.events plan.hard))
  else
    match commitCore snap tx.dels tx.adds plan.carry with
    | .error e => (snap, plan, .failed e)
    | .ok st =>
        if st.entries = [] then (st.snap, { plan with carry := st.carry }, .unchanged)
        else
          let frames := txRecords (plan.epoch + 1) (walQuads tx.dels tx.adds st.walOps)
          (st.snap,
            { plan with
              carry := st.carry
              epoch := plan.epoch + 1
              events := plan.events + st.entries.length
              strictest := if tx.durability = .strict then .strict else plan.strictest
              frames := plan.frames ++ frames },
            .planned ⟨st.entries, plan.epoch + 1, frames⟩)

/-- Record the entries of a planned transaction and move to its epoch. -/
def Snapshot.record (snap : Snapshot) (tx : PlannedTx) : Snapshot :=
  { snap with delta := snap.delta.record tx.entries tx.epoch, epoch := tx.epoch }

/-! ## A whole group

`runGroup` is one leader's pass without the steps of other calls in between. -/

/-- A transaction of the group and whether a merger is attached when it is planned. -/
structure Member where
  tx : Tx
  merger : Bool

/-- Plan the members in order, keeping each outcome and, for a transaction that
changes nothing, the snapshot that answers it. -/
def planAll (snap : Snapshot) (plan : GroupPlan) :
    List Member → Snapshot × GroupPlan × List (PlanOutcome × Snapshot)
  | [] => (snap, plan, [])
  | m :: ms =>
      let (snap, plan, outcome) := planOne m.merger snap plan m.tx
      let (last, plan, rest) := planAll snap plan ms
      (last, plan, (outcome, snap) :: rest)

/-- Answers of a group whose log write failed. -/
def answersFailed (message : String) (outcomes : List (PlanOutcome × Snapshot)) :
    List (Except StoreError Snapshot) :=
  outcomes.map fun o =>
    match o.1 with
    | .planned _ => .error (.corrupt message)
    | .unchanged => .ok o.2
    | .failed e => .error e

/-- Answers of a group whose log write succeeded, recording as it goes from `snap`. -/
def answersWritten (snap : Snapshot) :
    List (PlanOutcome × Snapshot) → List (Except StoreError Snapshot)
  | [] => []
  | (.planned tx, _) :: rest => .ok (snap.record tx) :: answersWritten (snap.record tx) rest
  | (.unchanged, seen) :: rest => .ok seen :: answersWritten snap rest
  | (.failed e, _) :: rest => .error e :: answersWritten snap rest

/-- The answers of a group started on `snap`; `written` is the outcome of the log
write. -/
def runGroup (snap : Snapshot) (hard : Nat) (written : Except String Unit) (members : List Member) :
    List (Except StoreError Snapshot) :=
  let (last, _, outcomes) := planAll snap (GroupPlan.start snap hard) members
  match written with
  | .error message => answersFailed message outcomes
  | .ok () => answersWritten last outcomes

end Graphy
