import Graphy.Misc.SortedSources
import Graphy.Store.Scan
import Mathlib.Data.Finset.Insert

/-!
# Merging the dictionary

The dictionary of the next generation, from the sorted sections of a base, the overlay
over it and the components of the triple terms in that overlay.  A first scan of the
frozen snapshot finds the terms still in use; the sections are merged in byte order; the
triple terms follow by depth.  Every id of the old generation in use gets its new value.
-/

namespace Graphy

/-- The rows of a scan, unless the fuel runs out first. -/
def QuadScan.rows : Nat → QuadScan → Except StoreError (Option (List QuadKey))
  | 0, _ => .ok none
  | fuel + 1, scan => do
      let (more, scan, out) ← scan.nextBatch (QuadBatch.withCapacity QuadBatch.batchCapacity)
      if more then
        let rest ← QuadScan.rows fuel scan
        return rest.map (out.rows ++ ·)
      else return some []

/-! ## Usage -/

/-- The old ids that the merged dataset references, one set per position and one for the
triple-term table. -/
structure Usage where
  subj : Finset Nat
  pred : Finset Nat
  obj : Finset Nat
  graph : Finset Nat
  tt : Finset Nat

namespace Usage

def empty : Usage := ⟨∅, ∅, ∅, ∅, ∅⟩

/-- Inline values live outside the dictionary. -/
def markTriple (u : Usage) (t : TripleKey) : Usage :=
  let u := { u with subj := insert t.s.payload u.subj, pred := insert t.p.payload u.pred }
  match t.o.tag with
  | 0 => { u with obj := insert t.o.payload u.obj }
  | 7 => { u with tt := insert t.o.payload u.tt }
  | _ => u

def markQuad (u : Usage) (q : QuadKey) : Usage :=
  let u := u.markTriple q.triple
  if Col.dict 0 < q.g then { u with graph := insert (q.g.payload - 1) u.graph } else u

/-- Components of referenced triple terms are referenced.  A record refers only to records
before it, so the walk is from the last one down. -/
def close (u : Usage) (records : List TripleKey) : Usage :=
  records.zipIdx.foldr (fun e u => if e.2 ∈ u.tt then u.markTriple e.1 else u) u

end Usage

/-- What the frozen snapshot references. -/
def usagePrepass (fuel : Nat) (snap : Snapshot) : Except StoreError (Option Usage) := do
  let scan ← snap.scan {} .spo
  let rows ← scan.rows fuel
  return rows.map fun rows => (rows.foldl Usage.markQuad Usage.empty).close snap.base.dict.ttRecords

/-! ## Splitting overlay triple terms -/

/-- The loop of `readVarint` at byte `i` with the value `v` so far; bits above the word
are shifted out. -/
def readVarintFrom (v i : Nat) : Bytes → Option (Nat × Nat)
  | [] => none
  | b :: rest =>
      if 10 ≤ i then none
      else
        let v := v + b.toNat % 128 * 2 ^ (7 * i) % 2 ^ 64
        if b.toNat < 128 then some (v, i + 1) else readVarintFrom v (i + 1) rest

/-- Value and bytes consumed; unlike the term decoder's, this reader takes a tenth byte
as it comes. -/
def readVarint (bytes : Bytes) : Option (Nat × Nat) := readVarintFrom 0 0 bytes

def splitTtPart (payload : Bytes) : Except String (Bytes × Bytes) :=
  match readVarint payload with
  | none => .error "truncated triple term"
  | some (len, n) =>
      if (payload.drop n).length < len then .error "truncated triple term"
      else .ok ((payload.drop n).take len, (payload.drop n).drop len)

/-- The components of a concise triple term. -/
def splitTripleTerm : Bytes → Except String (Bytes × Bytes × Bytes)
  | 0x09 :: payload => do
      let (s, rest) ← splitTtPart payload
      let (p, rest) ← splitTtPart rest
      let (o, rest) ← splitTtPart rest
      if rest ≠ [] then throw "trailing bytes in triple term"
      return (s, p, o)
  | _ => .error "not a concise triple term"

/-- A component of an overlay triple term. -/
inductive TtComp where
  /-- Position among the components of the role. -/
  | extra (i : Nat)
  | inline (c : Col)
  /-- Position among the overlay triple terms. -/
  | inner (i : Nat)
deriving DecidableEq, Repr

structure TtParts where
  s : TtComp
  p : TtComp
  o : TtComp
deriving DecidableEq, Repr

/-- Overlay triple terms taken apart: the components of each role, in the order they were
met, and the terms with their bytes, inner ones before those that hold them. -/
structure OverlayTts where
  extraSubj : List Bytes
  extraPred : List Bytes
  extraObj : List Bytes
  tts : List (Bytes × TtParts)
deriving DecidableEq, Repr

/-- Position of the component, which joins the list when it is not there. -/
def addExtra (l : List Bytes) (b : Bytes) : List Bytes × Nat :=
  match l.idxOf? b with
  | some i => (l, i)
  | none => (l ++ [b], l.length)

variable [InlineCodec]

/-- The inline value of a component object. -/
def tryInlineObject (b : Bytes) : Except String (Option Col) :=
  match Concise.decode b with
  | .error e => .error e.message
  | .ok _ => .ok (tryInline b)

namespace OverlayTts

def empty : OverlayTts := ⟨[], [], [], []⟩

def push (st : OverlayTts) (b : Bytes) (parts : TtParts) : OverlayTts × Nat :=
  ({ st with tts := st.tts ++ [(b, parts)] }, st.tts.length)

/-- Position of a triple term, which is taken apart when it is met for the first time.  The
fuel is its length; an object component is shorter. -/
def splitTt : Nat → Bytes → OverlayTts → Except String (OverlayTts × Nat)
  | 0, _, _ => .error "not a concise triple term"
  | fuel + 1, b, st =>
      match (st.tts.map Prod.fst).idxOf? b with
      | some i => .ok (st, i)
      | none => do
          let (s, p, o) ← splitTripleTerm b
          let (extraSubj, cs) := addExtra st.extraSubj s
          let (extraPred, cp) := addExtra st.extraPred p
          let st := { st with extraSubj := extraSubj, extraPred := extraPred }
          if o.head? = some 0x09 then
            let (st, i) ← splitTt fuel o st
            return st.push b ⟨.extra cs, .extra cp, .inner i⟩
          else
            match ← tryInlineObject o with
            | some c => return st.push b ⟨.extra cs, .extra cp, .inline c⟩
            | none =>
                let (extraObj, co) := addExtra st.extraObj o
                return { st with extraObj := extraObj }.push b ⟨.extra cs, .extra cp, .extra co⟩

end OverlayTts

/-- The overlay objects in use: plain ones, and triple terms with their positions. -/
structure OverlayObjects where
  plain : List (Bytes × Nat)
  split : OverlayTts
  tts : List (Nat × Nat)

/-- Sort one used overlay object in; one that is not used is garbage. -/
def OverlayObjects.take (usage : Usage) (st : OverlayObjects) (e : Bytes × Nat) :
    Except StoreError OverlayObjects :=
  if e.2 ∉ usage.obj then .ok st
  else if e.1.head? = some 0x09 then
    match st.split.splitTt e.1.length e.1 with
    | .error m => .error (.corrupt m)
    | .ok (split, i) => .ok { st with split := split, tts := st.tts ++ [(e.2, i)] }
  else .ok { st with plain := st.plain ++ [e] }

/-! ## Merging the sections -/

/-- What a source of the merge lists. -/
inductive SourceTag where
  | shared
  | subjects
  | predicates
  | objects
  | graphs
  | ovSubj
  | ovPred
  | ovObj
  | ovGraph
  | extraSubj
  | extraPred
  | extraObj
deriving DecidableEq, Repr

/-- A new position: one that stands as it is, or one of a section that comes behind the
shared one, whose size is known at the end only. -/
inductive Slot where
  | whole (n : Nat)
  | own (n : Nat)
deriving DecidableEq, Repr

def Slot.fix (nShared : Nat) : Slot → Nat
  | .whole n => n
  | .own n => nShared + n

/-- New positions by old id. -/
abbrev Remap := Nat → Option Slot

def Remap.none : Remap := fun _ => Option.none

/-- Note where an id went, when its term has a place in the role. -/
def Remap.put (t : Remap) (i : Nat) (slot : Option Slot) : Remap :=
  match slot with
  | Option.none => t
  | some slot => Function.update t i (some slot)

/-- The roles of a term over all its old ids. -/
structure Roles where
  s : Bool
  p : Bool
  o : Bool
  g : Bool

/-- One old id of the term: base ids by their use, overlay and component ids are used. -/
def Roles.join (usage : Usage) (nShared : Nat) (r : Roles) (m : SourceTag × Nat) : Roles :=
  match m.1 with
  | .shared => { r with s := r.s || m.2 ∈ usage.subj, o := r.o || m.2 ∈ usage.obj }
  | .subjects => { r with s := r.s || nShared + m.2 ∈ usage.subj }
  | .predicates => { r with p := r.p || m.2 ∈ usage.pred }
  | .objects => { r with o := r.o || nShared + m.2 ∈ usage.obj }
  | .graphs => { r with g := r.g || m.2 ∈ usage.graph }
  | .ovSubj | .extraSubj => { r with s := true }
  | .ovPred | .extraPred => { r with p := true }
  | .ovObj | .extraObj => { r with o := true }
  | .ovGraph => { r with g := true }

/-- Where the merge of the sections stands. -/
structure SectionMerge where
  shared : List Bytes
  subjects : List Bytes
  predicates : List Bytes
  objects : List Bytes
  graphs : List Bytes
  rSubj : Remap
  rPred : Remap
  rObj : Remap
  rGraph : Remap
  extraSubj : Remap
  extraPred : Remap
  extraObj : Remap

/-- Where a term goes in each role. -/
structure Placed where
  s : Option Slot
  o : Option Slot
  p : Option Slot
  g : Option Slot

namespace SectionMerge

def start : SectionMerge :=
  ⟨[], [], [], [], [], Remap.none, Remap.none, Remap.none, Remap.none, Remap.none, Remap.none,
    Remap.none⟩

/-- Append a term to the sections of its roles: subjects and objects share a section. -/
def emit (st : SectionMerge) (b : Bytes) (r : Roles) : SectionMerge × Placed :=
  let (st, s, o) :=
    match r.s, r.o with
    | true, true =>
        ({ st with shared := st.shared ++ [b] }, some (Slot.whole st.shared.length),
          some (Slot.whole st.shared.length))
    | true, false =>
        ({ st with subjects := st.subjects ++ [b] }, some (Slot.own st.subjects.length), none)
    | false, true =>
        ({ st with objects := st.objects ++ [b] }, none, some (Slot.own st.objects.length))
    | false, false => (st, none, none)
  let (st, p) :=
    if r.p then
      ({ st with predicates := st.predicates ++ [b] }, some (Slot.whole st.predicates.length))
    else (st, none)
  let (st, g) :=
    if r.g then ({ st with graphs := st.graphs ++ [b] }, some (Slot.whole st.graphs.length))
    else (st, none)
  (st, ⟨s, o, p, g⟩)

/-- Give one old id of the term its new positions. -/
def assign (nShared : Nat) (placed : Placed) (st : SectionMerge) (m : SourceTag × Nat) :
    SectionMerge :=
  match m.1 with
  | .shared =>
      { st with rSubj := st.rSubj.put m.2 placed.s, rObj := st.rObj.put m.2 placed.o }
  | .subjects => { st with rSubj := st.rSubj.put (nShared + m.2) placed.s }
  | .objects => { st with rObj := st.rObj.put (nShared + m.2) placed.o }
  | .predicates => { st with rPred := st.rPred.put m.2 placed.p }
  | .graphs => { st with rGraph := st.rGraph.put m.2 placed.g }
  | .ovSubj => { st with rSubj := st.rSubj.put m.2 placed.s }
  | .ovPred => { st with rPred := st.rPred.put m.2 placed.p }
  | .ovObj => { st with rObj := st.rObj.put m.2 placed.o }
  | .ovGraph => { st with rGraph := st.rGraph.put (m.2 - 1) placed.g }
  | .extraSubj => { st with extraSubj := st.extraSubj.put m.2 placed.s }
  | .extraPred => { st with extraPred := st.extraPred.put m.2 placed.p }
  | .extraObj => { st with extraObj := st.extraObj.put m.2 placed.o }

/-- Place the next term, with all its old ids. -/
def place (usage : Usage) (nShared : Nat) (st : SectionMerge)
    (group : Bytes × List (SourceTag × Nat)) : SectionMerge :=
  let roles := group.2.foldl (Roles.join usage nShared) ⟨false, false, false, false⟩
  let (st, placed) := st.emit group.1 roles
  group.2.foldl (assign nShared placed) st

end SectionMerge

/-! ## Triple terms by depth -/

/-- New values by old id. -/
abbrev RemapCol := Nat → Option Col

/-- The word that marks an id without a new value. -/
def unmapped : Col := Col.max

/-- New value of an id in a table. -/
def RemapCol.get (t : RemapCol) (i : Nat) (what : String) : Except StoreError Col :=
  match t i with
  | some c => .ok c
  | none => .error (.corrupt s!"streaming merge: unmapped {what} id {i}")

/-- Depth of every record of the table. -/
def recordDepths (records : List TripleKey) : List Nat :=
  records.foldl (fun depths r =>
    depths ++ [if r.o.tag = 7 then (depths[r.o.payload]?).getD 0 + 1 else 1]) []

/-- Depth of every overlay triple term. -/
def partsDepths (tts : List TtParts) : List Nat :=
  tts.foldl (fun depths parts =>
    depths ++ [match parts.o with
      | .inner j => (depths[j]?).getD 0 + 1
      | _ => 1]) []

/-- A resolved record, and the old record or overlay triple term it is from. -/
structure TtEntry where
  record : TripleKey
  overlay : Bool
  index : Nat

namespace TtEntry

def key (e : TtEntry) : Xyz ×ₗ Bool ×ₗ Nat :=
  toLex (Order.spo.toXyz e.record, toLex (e.overlay, e.index))

end TtEntry

/-- The tables of the section merge, with the shared section's size known. -/
structure SectionMaps where
  rSubj : RemapCol
  rPred : RemapCol
  rObj : RemapCol
  rGraph : RemapCol
  extraSubj : RemapCol
  extraPred : RemapCol
  extraObj : RemapCol

/-- Where canonicalizing the triple terms stands. -/
structure TtMerge where
  records : List TripleKey
  /-- New value of a base record. -/
  rTt : RemapCol
  /-- New value of an overlay triple term. -/
  overlay : RemapCol

namespace TtMerge

def start : TtMerge := ⟨[], fun _ => none, fun _ => none⟩

/-- A base record in the new id space; its inner triple term is of a lower depth. -/
def resolveRecord (maps : SectionMaps) (st : TtMerge) (r : TripleKey) :
    Except StoreError TripleKey := do
  let s ← maps.rSubj.get r.s.raw "tt subject"
  let p ← maps.rPred.get r.p.raw "tt predicate"
  let o ←
    match r.o.tag with
    | 0 => maps.rObj.get r.o.raw "tt object"
    | 7 => pure ((st.rTt r.o.payload).getD unmapped)
    | _ => pure r.o
  return ⟨s, p, o⟩

def resolveComp (st : TtMerge) (table : RemapCol) (what : String) : TtComp → Except StoreError Col
  | .extra i => table.get i what
  | .inline c => .ok c
  | .inner i => .ok ((st.overlay i).getD unmapped)

/-- An overlay triple term in the new id space. -/
def resolveParts (maps : SectionMaps) (st : TtMerge) (parts : TtParts) :
    Except StoreError TripleKey := do
  let s ← st.resolveComp maps.extraSubj "tt component subject" parts.s
  let p ← st.resolveComp maps.extraPred "tt component predicate" parts.p
  let o ← st.resolveComp maps.extraObj "tt component object" parts.o
  return ⟨s, p, o⟩

/-- Give one entry of a sorted level its value; equal records are one. -/
def settle (acc : TtMerge × Option TripleKey) (e : TtEntry) : TtMerge × Option TripleKey :=
  let (st, last) := acc
  let records := if last = some e.record then st.records else st.records ++ [e.record]
  let final := Col.tripleTerm (records.length - 1)
  let st := { st with records := records }
  (if e.overlay then { st with overlay := Function.update st.overlay e.index (some final) }
    else { st with rTt := Function.update st.rTt e.index (some final) }, some e.record)

/-- The entries of one depth: used base records, then overlay triple terms. -/
def level (maps : SectionMaps) (usage : Usage) (base : List TripleKey) (tts : List TtParts)
    (st : TtMerge) (depth : Nat) : Except StoreError (List TtEntry) := do
  let old := base.zipIdx.filter fun e =>
    decide ((recordDepths base)[e.2]? = some depth) && decide (e.2 ∈ usage.tt)
  let fromBase ← old.mapM fun e => do return ⟨← st.resolveRecord maps e.1, false, e.2⟩
  let new := tts.zipIdx.filter fun e => decide ((partsDepths tts)[e.2]? = some depth)
  let fromOverlay ← new.mapM fun e => do return ⟨← st.resolveParts maps e.1, true, e.2⟩
  return fromBase ++ fromOverlay

def addLevel (maps : SectionMaps) (usage : Usage) (base : List TripleKey) (tts : List TtParts)
    (st : TtMerge) (depth : Nat) : Except StoreError TtMerge := do
  let entries ← st.level maps usage base tts depth
  return ((entries.insertionSort fun a b => a.key ≤ b.key).foldl settle (st, none)).1

end TtMerge

/-! ## The merged dictionary -/

/-- The new dictionary and the new value of every old id in use. -/
structure MergedDict where
  dict : Dictionary
  rSubj : RemapCol
  rPred : RemapCol
  rObj : RemapCol
  /-- By section ordinal. -/
  rGraph : RemapCol
  rTt : RemapCol

namespace MergedDict

def mapSubj (md : MergedDict) (v : Col) : Except StoreError Col := md.rSubj.get v.raw "subject"

def mapPred (md : MergedDict) (v : Col) : Except StoreError Col := md.rPred.get v.raw "predicate"

def mapObj (md : MergedDict) (v : Col) : Except StoreError Col :=
  match v.tag with
  | 0 => md.rObj.get v.raw "object"
  | 7 => md.rTt.get v.payload "triple term"
  | _ => .ok v

/-- The column value 0 is the default graph. -/
def mapGraph (md : MergedDict) (v : Col) : Except StoreError Col :=
  if v = Col.dict 0 then .ok v
  else do
    let w ← md.rGraph.get (v.raw - 1) "graph"
    return ⟨w.tag, w.payload + 1⟩

def mapQuad (md : MergedDict) (q : QuadKey) : Except StoreError QuadKey := do
  return ⟨← md.mapSubj q.s, ← md.mapPred q.p, ← md.mapObj q.o, ← md.mapGraph q.g⟩

end MergedDict

/-- Overlay terms of a position in byte order, with their column values. -/
def sortedOverlay (snap : Snapshot) (pos : TermPos) : List (Bytes × Nat) :=
  ((snap.delta.overlayTerms pos).map fun e => (e.1, e.2.payload)).insertionSort
    fun a b => toLex a ≤ toLex b

/-- Components of a role in byte order, with their positions. -/
def extraSource (l : List Bytes) : List (Bytes × Nat) :=
  l.zipIdx.insertionSort fun a b => toLex a ≤ toLex b

/-- The sources of the section merge. -/
def mergeSources (snap : Snapshot) (usage : Usage) (objects : OverlayObjects) :
    Sources SourceTag Bytes Nat :=
  let d := snap.base.dict
  [(.shared, d.shared.zipIdx), (.subjects, d.subjects.zipIdx),
    (.predicates, d.predicates.zipIdx), (.objects, d.objects.zipIdx),
    (.graphs, d.graphs.zipIdx),
    (.ovSubj, (sortedOverlay snap .subject).filter fun e => decide (e.2 ∈ usage.subj)),
    (.ovPred, (sortedOverlay snap .predicate).filter fun e => decide (e.2 ∈ usage.pred)),
    (.ovObj, objects.plain),
    (.ovGraph, (sortedOverlay snap .graph).filter fun e => decide (e.2 - 1 ∈ usage.graph)),
    (.extraSubj, extraSource objects.split.extraSubj),
    (.extraPred, extraSource objects.split.extraPred),
    (.extraObj, extraSource objects.split.extraObj)]

/-- Add the shared section's size where it was left open. -/
def SectionMerge.fixup (st : SectionMerge) : SectionMaps :=
  let fix (t : Remap) : RemapCol := fun i => (t i).map fun slot => Col.dict (slot.fix st.shared.length)
  ⟨fix st.rSubj, fix st.rPred, fix st.rObj, fix st.rGraph, fix st.extraSubj, fix st.extraPred,
    fix st.extraObj⟩

/-- The section merge and the canonicalization of the triple terms. -/
def mergeDictionaries (snap : Snapshot) (usage : Usage) : Except StoreError MergedDict := do
  let d := snap.base.dict
  let objects ← (sortedOverlay snap .object).foldlM (OverlayObjects.take usage)
    ⟨[], OverlayTts.empty, []⟩
  let sources := mergeSources snap usage objects
  let groups := Sources.groups ((sources.map fun s => s.2.length).sum + 1) sources
  let sections := groups.foldl (SectionMerge.place usage d.shared.length) SectionMerge.start
  let maps := sections.fixup
  let tts := objects.split.tts.map Prod.snd
  let maxDepth := (recordDepths d.ttRecords ++ partsDepths tts).foldl max 0
  let merged ← (List.range' 1 maxDepth).foldlM
    (TtMerge.addLevel maps usage d.ttRecords tts) TtMerge.start
  return {
    dict := ⟨sections.shared, sections.subjects, sections.predicates, sections.objects,
      sections.graphs, merged.records⟩
    rSubj := maps.rSubj
    rPred := maps.rPred
    rObj := objects.tts.foldl (fun t e => Function.update t e.1 (merged.overlay e.2)) maps.rObj
    rGraph := maps.rGraph
    rTt := merged.rTt }

end Graphy
