import Graphy.Store.Proofs.BtBytes
import Graphy.Store.Proofs.SourceRows
import Graphy.Succinct.Proofs.Wavelet

/-!
# The directories of a segment

The marks of the orderings and of the object index are bit vectors with directories, and
the predicates of the pairs a wavelet matrix with directories.  Over a segment that is not
too large all of them answer as the lists that the model of the segment navigates.
-/

namespace Graphy

open Succinct

theorem length_triplesOf_le (quads : List QuadKey) : (triplesOf quads).length ≤ quads.length := by
  simpa [triplesOf] using
    (runHeads_sublist none (quads.map fun q => Order.spo.toXyz q.triple)).length_le

theorem length_orderTriples (order : Order) (triples : List Xyz) :
    (orderTriples order triples).length = triples.length := by
  simp [orderTriples]

theorem length_objectOrdinals (triples : List Xyz) :
    (objectOrdinals triples).length = triples.length := by
  simp [objectOrdinals]

/-- The marks of an ordering. -/
theorem Bt.Represents.agrees {bt : Bt} {T : List Xyz} (rep : bt.Represents T)
    (short : T.length ≤ 2 ^ 44) : Agrees bt.bx ∧ Agrees bt.by_ := by
  constructor
  · refine agrees_of_short ?_
    rw [rep.bx, length_runMarks]
    exact (Bt.length_pairs_le T).trans short
  · refine agrees_of_short ?_
    rwa [rep.by_, length_runMarks]

/-- The accessors built over an ordering. -/
theorem Foq.build_agrees {spo : Bt} {T : List Xyz} (rep : spo.Represents T)
    (short : T.length ≤ 2 ^ 44) {sorted : List (Col × Nat)} (same : sorted.length = T.length)
    {width : Nat} (most : width ≤ 64) (fits : ∀ v ∈ spo.sy.map Col.payload, v < 2 ^ width) :
    Agrees (Foq.build spo sorted width).bo ∧
      ∀ sym < 2 ^ width, Succinct.Represents (spo.sy.map Col.payload) width sym := by
  constructor
  · refine agrees_of_short ?_
    rw [Foq.build, length_runMarks, same]
    exact short
  · intro sym small
    refine represents_of_short most fits ?_ small
    rw [List.length_map, rep.sy, List.length_map]
    exact (Bt.length_pairs_le T).trans short

/-- Every directory of a segment of at most `2 ^ 44` quads and `2 ^ 64` predicates answers as
the list it is over. -/
theorem Segment.Holds.directories [InlineCodec] {seg : Segment} {quads : List QuadKey}
    (holds : seg.Holds quads) (short : quads.length ≤ 2 ^ 44)
    (predicates : seg.dict.predicates.length ≤ 2 ^ 64) :
    (∀ order bt, (order, bt) ∈ seg.orderings → Agrees bt.bx ∧ Agrees bt.by_) ∧
      ∀ foq, seg.foq = some foq → Agrees foq.bo ∧ ∃ values width,
        foq.wp = Graphy.WaveletMatrix.new values width ∧
          ∀ sym < 2 ^ width, Succinct.Represents values width sym := by
  have few : (triplesOf quads).length ≤ 2 ^ 44 := (length_triplesOf_le quads).trans short
  refine ⟨fun order bt mem => ?_, fun foq built => ?_⟩
  · refine (holds.orderings order bt mem).represents.agrees ?_
    rwa [length_orderTriples]
  · obtain ⟨spo, rep, rfl⟩ := holds.foq foq built
    have most : bitsFor (maxPayload (quads.map QuadKey.p)) ≤ 64 := by
      refine bitsFor_le (Nat.lt_succ_of_le (m := 2 ^ 64 - 1)
        (maxPayload_le_iff.mpr fun c mem => ?_))
      obtain ⟨q, hq, rfl⟩ := List.mem_map.mp mem
      have inside := (holds.valid q hq).p.2
      omega
    have fits : ∀ v ∈ spo.sy.map Col.payload, v < 2 ^ bitsFor (maxPayload (quads.map QuadKey.p)) := by
      intro v mem
      obtain ⟨c, hc, rfl⟩ := List.mem_map.mp mem
      rw [rep.sy] at hc
      obtain ⟨t, ht, rfl⟩ := List.mem_map.mp hc
      obtain ⟨q, hq, rfl⟩ := mem_triplesOf.mp (Bt.mem_of_mem_pairs ht)
      exact WaveletMatrix.lt_two_pow_bitsFor (le_maxPayload (List.mem_map_of_mem hq))
    obtain ⟨objects, pairs⟩ := Foq.build_agrees rep few (length_objectOrdinals _) most fits
    exact ⟨objects, _, _, rfl, pairs⟩

end Graphy
