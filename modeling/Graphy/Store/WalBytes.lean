import Graphy.Core.Term
import Graphy.Misc.LittleEndian
import Graphy.Store.Commit

/-!
# The bytes of the log

A frame is the payload's length in four bytes, its digest in eight and the
payload: a tag and fields.  The digest is some function of the payload.  Replay
reads frames until one is short, corrupt or out of place, and then delivers the
transactions that no checkpoint folded.
-/

namespace Graphy.WalBytes

/-- One logged operation: its kind and the concise terms. -/
structure WalOp where
  del : Bool
  s : Bytes
  p : Bytes
  o : Bytes
  g : Option Bytes
deriving DecidableEq, Repr

def tagBegin : UInt8 := 1
def tagQuad : UInt8 := 2
def tagCommit : UInt8 := 3
def tagCheckpoint : UInt8 := 4
def tagMergeStart : UInt8 := 5
def tagMergeCommit : UInt8 := 6

/-! ## Writing -/

/-- A payload as it stands in the log; the length is cut to four bytes. -/
def frame (hash : Bytes → UInt64) (payload : Bytes) : Bytes :=
  leBytes 4 payload.length ++ (leBytes 8 (hash payload).toNat ++ payload)

/-- A field: its length in four bytes and its bytes. -/
def putBytes (b : Bytes) : Bytes := leBytes 4 b.length ++ b

/-- The graph of a quad record: a flag and the term when there is one. -/
def putGraph : Option Bytes → Bytes
  | none => [0]
  | some g => 1 :: putBytes g

def opPayload (op : WalOp) : Bytes :=
  tagQuad :: (if op.del then 1 else 0) ::
    (putBytes op.s ++ (putBytes op.p ++ (putBytes op.o ++ putGraph op.g)))

/-- A tag and one 64-bit field. -/
def wordPayload (tag : UInt8) (v : Nat) : Bytes := tag :: leBytes 8 v

/-- Buffer one transaction. -/
def appendTxTerms (hash : Bytes → UInt64) (pending : Bytes) (epoch : Nat) (ops : List WalOp) :
    Bytes :=
  let opened := pending ++ frame hash [tagBegin]
  let filled := ops.foldl (fun pending op => pending ++ frame hash (opPayload op)) opened
  filled ++ frame hash (wordPayload tagCommit epoch)

/-- Buffer the bracket a merge opens with. -/
def appendMergeStart (hash : Bytes → UInt64) (pending : Bytes) (freezeEpoch : Nat) : Bytes :=
  pending ++ frame hash (wordPayload tagMergeStart freezeEpoch)

/-- What a rotated log opens with. -/
def stageOpen (hash : Bytes → UInt64) (generation freezeEpoch : Nat) : Bytes :=
  frame hash (wordPayload tagMergeCommit generation) ++
    frame hash (wordPayload tagCheckpoint freezeEpoch)

/-- The log file once a torn tail is cut off. -/
def openAppend (file : Bytes) (validLen : Nat) : Bytes := file.take validLen

/-! ## Reading -/

/-- The payload of the frame that opens the bytes, and what follows it; nothing when it is
short, corrupt or empty. -/
def readFrame (hash : Bytes → UInt64) (bytes : Bytes) : Option (Bytes × Bytes) :=
  if bytes.length < 12 then none
  else
    let len := leNat (bytes.take 4)
    let digest := leNat ((bytes.drop 4).take 8)
    let body := bytes.drop 12
    if body.length < len then none
    else
      let payload := body.take len
      if (hash payload).toNat ≠ digest ∨ payload = [] then none
      else some (payload, body.drop len)

/-- A field and what follows it. -/
def takeField (p : Bytes) : Option (Bytes × Bytes) :=
  if p.length < 4 then none
  else
    let len := leNat (p.take 4)
    let body := p.drop 4
    if body.length < len then none else some (body.take len, body.drop len)

/-- A flag byte and what follows it. -/
def takeFlag : Bytes → Option (Bool × Bytes)
  | [] => none
  | b :: p => if b = 0 then some (false, p) else if b = 1 then some (true, p) else none

/-- A graph, when the flag says so, and what follows it. -/
def takeGraph (p : Bytes) : Option (Option Bytes × Bytes) := do
  let (named, p) ← takeFlag p
  if named then
    let (g, p) ← takeField p
    return (some g, p)
  else return (none, p)

/-- The operation of a quad record's fields. -/
def parseOp (p : Bytes) : Option WalOp := do
  let (del, p) ← takeFlag p
  let (s, p) ← takeField p
  let (pp, p) ← takeField p
  let (o, p) ← takeField p
  let (g, p) ← takeGraph p
  if p = [] then return ⟨del, s, pp, o, g⟩ else none

/-- Where replaying the bytes stands. -/
structure ReplayState where
  pos : Nat
  /-- End of the last complete run of records. -/
  valid : Nat
  pending : Option (List WalOp)
  checkpointEpoch : Nat
  /-- Commits that survive the newest checkpoint. -/
  committed : List (Nat × List WalOp)
deriving DecidableEq, Repr

namespace ReplayState

def start : ReplayState := ⟨0, 0, none, 0, []⟩

def bad (ctx message : String) (at_ : Nat) : StoreError :=
  .corrupt s!"{ctx}: {message} at byte {at_}"

/-- Take one payload that ends at `recEnd`; `none` ends the replay at a record out of
place. -/
def step (ctx : String) (r : ReplayState) (recEnd : Nat) :
    Bytes → Except StoreError (Option ReplayState)
  | [] => .ok none
  | tag :: fields =>
      if tag = tagBegin then
        match r.pending with
        | some _ => .ok none
        | none => .ok (some { r with pending := some [], pos := recEnd })
      else if tag = tagQuad then
        match r.pending with
        | none => .ok none
        | some tx =>
            match parseOp fields with
            | none => .error (bad ctx "malformed quad record" r.pos)
            | some op => .ok (some { r with pending := some (tx ++ [op]), pos := recEnd })
      else if tag = tagCommit then
        match r.pending with
        | none => .ok none
        | some ops =>
            if fields.length < 8 then .error (bad ctx "malformed commit record" r.pos)
            else .ok (some { r with
              pending := none
              committed := r.committed ++ [(leNat (fields.take 8), ops)]
              valid := recEnd
              pos := recEnd })
      else if tag = tagCheckpoint then
        match r.pending with
        | some _ => .ok none
        | none =>
            if fields.length < 8 then .error (bad ctx "malformed checkpoint record" r.pos)
            else
              let f := leNat (fields.take 8)
              .ok (some { r with
                committed := r.committed.filter fun c => decide (f < c.1)
                checkpointEpoch := max r.checkpointEpoch f
                valid := recEnd
                pos := recEnd })
      else if tag = tagMergeStart ∨ tag = tagMergeCommit then
        match r.pending with
        | some _ => .ok none
        | none => .ok (some { r with valid := recEnd, pos := recEnd })
      else .ok none

end ReplayState

theorem readFrame_length {hash : Bytes → UInt64} {bytes payload rest : Bytes}
    (h : readFrame hash bytes = some (payload, rest)) :
    bytes.length = 12 + payload.length + rest.length := by
  unfold readFrame at h
  split at h
  · cases h
  · simp only at h
    split at h
    · cases h
    · split at h
      · cases h
      · cases h
        simp only [List.length_take, List.length_drop] at *
        omega

/-- Read frames from the bytes that are left. -/
def replayFrom (hash : Bytes → UInt64) (ctx : String) (r : ReplayState) (bytes : Bytes) :
    Except StoreError ReplayState :=
  match _h : readFrame hash bytes with
  | none => .ok r
  | some (payload, rest) =>
      match r.step ctx (r.pos + 12 + payload.length) payload with
      | .error e => .error e
      | .ok none => .ok r
      | .ok (some r') => replayFrom hash ctx r' rest
termination_by bytes.length
decreasing_by
  have := readFrame_length _h
  omega

/-- Length of the valid prefix, and the newest checkpoint's epoch. -/
structure Replayed where
  validLen : Nat
  checkpointEpoch : Nat
deriving DecidableEq, Repr

/-- Replay a log image: hand the surviving transactions to `onCommit` in order. -/
def replayBytes {σ : Type} (hash : Bytes → UInt64) (bytes : Bytes) (ctx : String)
    (onCommit : σ → Nat → List WalOp → Except StoreError σ) (init : σ) :
    Except StoreError (σ × Replayed) := do
  let r ← replayFrom hash ctx .start bytes
  let final ← r.committed.foldlM (fun s tx => onCommit s tx.1 tx.2) init
  return (final, ⟨r.valid, r.checkpointEpoch⟩)

/-! ## Logs -/

/-- One call of an append function. -/
inductive Append where
  | tx (epoch : Nat) (ops : List WalOp)
  | mergeStart (freezeEpoch : Nat)
deriving DecidableEq, Repr

namespace Append

def write (hash : Bytes → UInt64) (pending : Bytes) : Append → Bytes
  | .tx epoch ops => appendTxTerms hash pending epoch ops
  | .mergeStart freezeEpoch => appendMergeStart hash pending freezeEpoch

/-- The transaction a call appends. -/
def tx? : Append → Option (Nat × List WalOp)
  | .tx epoch ops => some (epoch, ops)
  | .mergeStart _ => none

end Append

def WalOp.terms (op : WalOp) : List Bytes := [op.s, op.p, op.o] ++ op.g.toList

/-- Epochs are 64-bit and terms shorter than `2 ^ 32`. -/
def Append.InRange : Append → Prop
  | .tx epoch ops => epoch < 2 ^ 64 ∧ ∀ op ∈ ops, ∀ t ∈ op.terms, t.length < 2 ^ 32
  | .mergeStart freezeEpoch => freezeEpoch < 2 ^ 64

/-- A sequence of append calls. -/
structure Appends where
  calls : List Append
  inRange : ∀ a ∈ calls, a.InRange

namespace Appends

def txs (a : Appends) : List (Nat × List WalOp) := a.calls.filterMap Append.tx?

/-- The log file once the calls are written to it. -/
def write (a : Appends) (hash : Bytes → UInt64) (file : Bytes) : Bytes :=
  a.calls.foldl (Append.write hash) file

end Appends

/-- A log the append functions wrote.  One that a merge rotated opens with the generation
and the freeze epoch, and its transactions are later than that. -/
structure Log extends Appends where
  head : Option (Nat × Nat)
  words : ∀ h ∈ head, h.1 < 2 ^ 64 ∧ h.2 < 2 ^ 64
  later : ∀ h ∈ head, ∀ tx ∈ toAppends.txs, h.2 < tx.1

namespace Log

def headBytes (log : Log) (hash : Bytes → UInt64) : Bytes :=
  match log.head with
  | none => []
  | some (generation, freezeEpoch) => stageOpen hash generation freezeEpoch

def bytes (log : Log) (hash : Bytes → UInt64) : Bytes := log.write hash (log.headBytes hash)

end Log

/-! ## What recovery owes -/

/-- The transactions of the calls whose last frame, the commit, ends within the cut;
`written` is the log before the calls. -/
def committedWithin (hash : Bytes → UInt64) (cut : Nat) :
    Bytes → List Append → List (Nat × List WalOp)
  | _, [] => []
  | written, a :: calls =>
      (if (a.write hash written).length ≤ cut then a.tx?.toList else []) ++
        committedWithin hash cut (a.write hash written) calls

namespace Log

/-- The checkpoint of the head, when it lies within the cut. -/
def checkpointWithin (log : Log) (hash : Bytes → UInt64) (cut : Nat) : Option Nat :=
  match log.head with
  | none => none
  | some (generation, freezeEpoch) =>
      if (stageOpen hash generation freezeEpoch).length ≤ cut then some freezeEpoch else none

/-- The transactions committed within the cut and not folded by a checkpoint within it. -/
def surviving (log : Log) (hash : Bytes → UInt64) (cut : Nat) : List (Nat × List WalOp) :=
  (committedWithin hash cut (log.headBytes hash) log.calls).filter fun tx =>
    (log.checkpointWithin hash cut).all fun f => decide (f < tx.1)

end Log

/-- Payloads of a call. -/
def Append.payloads : Append → List Bytes
  | .tx epoch ops => [tagBegin] :: (ops.map opPayload ++ [wordPayload tagCommit epoch])
  | .mergeStart freezeEpoch => [wordPayload tagMergeStart freezeEpoch]

/-- Payloads of a log. -/
def Log.payloads (log : Log) : List Bytes :=
  (match log.head with
    | none => []
    | some (generation, freezeEpoch) =>
        [wordPayload tagMergeCommit generation, wordPayload tagCheckpoint freezeEpoch]) ++
  log.calls.flatMap Append.payloads

/-- The length of the first so many frames of the log. -/
def Log.FrameBoundary (log : Log) (hash : Bytes → UInt64) (n : Nat) : Prop :=
  ∃ k, n = ((log.payloads.take k).flatMap (frame hash)).length

/-- Replay of the bytes hands over exactly these transactions in order. -/
def Delivers (hash : Bytes → UInt64) (bytes : Bytes) (txs : List (Nat × List WalOp))
    (replayed : Replayed) : Prop :=
  ∀ (σ : Type) (ctx : String) (onCommit : σ → Nat → List WalOp → Except StoreError σ) (init : σ),
    replayBytes hash bytes ctx onCommit init =
      (txs.foldlM (fun s tx => onCommit s tx.1 tx.2) init).map fun s => (s, replayed)

/-- Recovery of a log from a cut: the surviving transactions, a frame boundary within the
cut, and with more calls appended there the same transactions and then theirs. -/
def RecoversAt (hash : Bytes → UInt64) (log : Log) (more : Appends) (cut : Nat) : Prop :=
  ∃ replayed, Delivers hash ((log.bytes hash).take cut) (log.surviving hash cut) replayed ∧
    log.FrameBoundary hash replayed.validLen ∧ replayed.validLen ≤ cut ∧
    ∃ replayed', Delivers hash
      (more.write hash (openAppend ((log.bytes hash).take cut) replayed.validLen))
      (log.surviving hash cut ++ more.txs) replayed'

/-- Recovery from every cut. -/
def Recovers (hash : Bytes → UInt64) (log : Log) (more : Appends) : Prop :=
  ∀ cut, RecoversAt hash log more cut

/-- Every quad record's payload is shorter than `2 ^ 32`. -/
def Appends.ShortRecords (a : Appends) : Prop :=
  ∀ tx ∈ a.txs, ∀ op ∈ tx.2, (opPayload op).length < 2 ^ 32

end Graphy.WalBytes
