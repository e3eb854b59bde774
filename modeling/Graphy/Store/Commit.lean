import Graphy.Store.Snapshot

/-!
# Planning a commit

`commitCore` validates a transaction, resolves its deletes, interns its adds and
keeps the ones that change something.  `carry` holds the effects of the
transactions planned before it in the same group, whose delta records land only
after the group's log write.
-/

namespace Graphy

/-- A store error with its message. -/
inductive StoreError where
  | corrupt (message : String)
  | manifest (message : String)
  | io (message : String)
deriving DecidableEq, Repr

/-- Whether the bytes are a term that may stand at the place named `what`. -/
def nodeKind (bytes : Bytes) (what : String) (allowBlank : Bool) : Except StoreError Unit :=
  let invalid (other : TermRef) : StoreError := .corrupt s!"{what}: invalid term kind {other.debug}"
  match Concise.decode bytes with
  | .error e => .error (.corrupt s!"{what}: {e.message}")
  | .ok (.iri _) => .ok ()
  | .ok (.blankNode label) => if allowBlank then .ok () else .error (invalid (.blankNode label))
  | .ok other => .error (invalid other)

/-- Validate a quad's term kinds; nothing is asked of the object. -/
def validateQuad (q : QuadTerms) : Except StoreError Unit := do
  nodeKind q.s "subject" true
  nodeKind q.p "predicate" false
  match q.g with
  | none => return ()
  | some g => nodeKind g "graph" true

/-- Effects of earlier transactions of the group, by key. -/
abbrev Carry := QuadKey → Option DeltaKind

/-- No effects. -/
def Carry.none : Carry := fun _ => Option.none

def Carry.insert (carry : Carry) (key : QuadKey) (kind : DeltaKind) : Carry :=
  fun k => if k = key then some kind else carry k

/-- Where planning one transaction stands. -/
structure PlanState where
  /-- The snapshot the group started from, with what has been interned since. -/
  snap : Snapshot
  carry : Carry
  entries : List (QuadKey × DeltaKind)
  /-- Kept operations: whether a delete, and the index among the deletes or adds. -/
  walOps : List (Bool × Nat)

namespace PlanState

variable [InlineCodec]

/-- Presence of a key as the transaction being planned sees it. -/
def present (st : PlanState) (key : QuadKey) : Bool :=
  match st.carry key with
  | some kind => decide (kind = .add)
  | none => st.snap.containsKey key

/-- Keep one operation. -/
def keep (st : PlanState) (key : QuadKey) (kind : DeltaKind) (op : Bool × Nat) : PlanState :=
  { st with
    carry := st.carry.insert key kind
    entries := st.entries ++ [(key, kind)]
    walOps := st.walOps ++ [op] }

/-- Plan one delete: an unresolvable term means the quad cannot exist. -/
def planDel (st : PlanState) (del : QuadTerms × Nat) : PlanState :=
  match st.snap.resolveKey del.1 with
  | none => st
  | some key => if st.present key then st.keep key .tombstone (true, del.2) else st

/-- Plan one add. -/
def planAdd (st : PlanState) (add : QuadTerms × Nat) : PlanState :=
  let (snap, key) := st.snap.internKey add.1
  let st := { st with snap := snap }
  if st.present key then st else st.keep key .add (false, add.2)

end PlanState

/-- Plan one transaction: `dels`, then `adds`. -/
def commitCore [InlineCodec] (snap : Snapshot) (dels adds : List QuadTerms) (carry : Carry) :
    Except StoreError PlanState := do
  (dels ++ adds).forM validateQuad
  let st : PlanState := { snap := snap, carry := carry, entries := [], walOps := [] }
  let st := dels.zipIdx.foldl PlanState.planDel st
  return adds.zipIdx.foldl PlanState.planAdd st

/-- The quads of the kept operations, as they are logged. -/
def walQuads (dels adds : List QuadTerms) (walOps : List (Bool × Nat)) :
    List (Bool × QuadTerms) :=
  walOps.filterMap fun op =>
    ((if op.1 then dels else adds)[op.2]?).map fun q => (op.1, q)

end Graphy
