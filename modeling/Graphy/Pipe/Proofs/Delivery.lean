import Graphy.Pipe.Proofs.Merge

/-!
# What pipelines deliver

A pipeline delivers what its operators make of the whole lists, as long as the copies and the ranks
that a run makes and the batches that its junction takes up fit 32 bits.
-/

namespace Graphy.Pipe

/-- Pipelines are compositions of list functions: alone, through `concat` with the legs in input
order, and through `merge` with an interleaving of the legs, which no run keeps from ending. -/
theorem pipeline_delivers (before after : List OpSpec) :
    (∀ input, FitsAll (fun _ => True) before (quadsOf input) →
      ∃ ran, runSingle before input = some ran ∧ ran.Delivers (applyAll before (quadsOf input))) ∧
    (∀ inputs,
      (∀ input ∈ started before after [] inputs, FitsAll (fun _ => True) before (quadsOf input)) →
      FitsAll (fun _ => True) after (legsOut before (started before after [] inputs)) →
        ∃ ran, runConcat before after inputs = some ran ∧
          ran.Delivers (applyAll after (legsOut before inputs))) ∧
    ∀ inputs,
      (∀ input ∈ inputs, FitsAll (fun xs => ∀ q ∈ xs, NamesGraph q) before (quadsOf input)) →
      (∃ plans, mergePlans before inputs = some plans) ∧
      (WellFounded fun m' m => Merge.Step (chain (buildOps after) Terminal.sink) m m') ∧
      ∀ m, MergeReaches before after Merge.Exact inputs m →
        (m.Ended ∨ ∃ m', Merge.Step (chain (buildOps after) Terminal.sink) m m') ∧
        (m.Ended → FitsAll (fun _ => True) after (quadsOf m.given) →
          ∃ ran zs, mergeFinish before after inputs m = some ran ∧
            Interleaves (inputs.map fun input => applyAll before (quadsOf input)) zs ∧
            ran.Delivers (applyAll after zs)) := by
  refine ⟨fun input fits => runSingle_eq fits, fun inputs legs fits => runConcat_eq legs fits,
    fun inputs fits => ⟨?_, merge_wellFounded _, fun m reaches => ⟨?_, fun ended fit => ?_⟩⟩⟩
  · obtain ⟨rests, planned, -⟩ :=
      mergePlans_eq fun input member => (fitsAll_iff.mp (fits input member)).1
    exact ⟨_, planned⟩
  · exact (mergeAfter_of_reaches fits reaches).progress
  · exact mergeFinish_eq fits reaches ended fit

/-- A quad in the default graph, of one-byte terms. -/
def smallQuad (s o : UInt8) : QuadRef := ⟨[s], [0x70], [o], none, none⟩

theorem packable_smallQuad (s o : UInt8) : Packable (smallQuad s o) := by
  refine ⟨?_, fun named => absurd rfl named⟩
  change 1 + 1 < 2 ^ 32
  decide

/-- A quad whose subject is an IRI of 4 GiB, its tag included. -/
def longSubject : QuadRef :=
  ⟨0x3E :: List.replicate (2 ^ 32 - 1) 0x61, [0x3E, 0x70], [0x3E, 0x6F], none, none⟩

section Small

/-- Two inputs of one quad each. -/
def smallInputs : List (List Event) := [[.quad (smallQuad 1 2)], [.quad (smallQuad 3 4)]]

/-- The junction between them and the first quad, once the second input has sent its batch and the
quad in it has been passed on. -/
def smallEnd : Merge (Chain Terminal (buildOps [.head 1 .quads])) :=
  ⟨[[EventBatch.pack [.quad (smallQuad 1 2)]], []], [], [],
    (⟨.head ⟨1, .quads, 1, ⟨[], 0⟩, true⟩, 0⟩, ⟨[smallQuad 3 4], 0⟩), true,
    [.quad (smallQuad 3 4)]⟩

theorem smallEnd_reached :
    MergeReaches [] [.head 1 .quads] Merge.Exact smallInputs smallEnd := by
  refine ⟨_, rfl, ?_⟩
  have idle : ∀ {legs : List (List EventBatch)} {s : Chain Terminal (buildOps [.head 1 .quads])},
      Merge.Exact ⟨legs, [], [], s, false, []⟩ := fun _ _ member => by cases member
  refine .head ⟨idle, @Merge.Step.send _ _ [_] [] _ _ [] _ _ _ _ (by decide)⟩ ?_
  refine .head ⟨fun _ batch member => ?_, .recv⟩ ?_
  · cases member
    decide
  · exact .single ⟨fun busy => (by cases busy), .stop rfl⟩

end Small

/-- The tree of one quad; the first quad of two legs, of which the second one, never started, would
not fit; and a merge that ends while a leg has still to send. -/
theorem pipeline_delivers_small :
    (∃ ran, runSingle [.tree] [.quad (smallQuad 1 2)] = some ran ∧
      ran.Delivers (applyAll [.tree] (quadsOf [.quad (smallQuad 1 2)]))) ∧
    (∃ ran, runConcat [.tail 1 .quads] [.head 1 .quads]
        [[.quad (smallQuad 1 2)], [.quad longSubject]] = some ran ∧
      ran.Delivers (applyAll [.head 1 .quads]
        (legsOut [.tail 1 .quads] [[.quad (smallQuad 1 2)], [.quad longSubject]]))) ∧
    ∃ ran zs, mergeFinish [] [.head 1 .quads] smallInputs smallEnd = some ran ∧
      Interleaves (smallInputs.map fun input => applyAll [] (quadsOf input)) zs ∧
      ran.Delivers (applyAll [.head 1 .quads] zs) := by
  obtain ⟨single, -, -⟩ := pipeline_delivers [.tree] []
  obtain ⟨-, concat, -⟩ := pipeline_delivers [.tail 1 .quads] [.head 1 .quads]
  obtain ⟨-, -, merge⟩ := pipeline_delivers [] [.head 1 .quads]
  have one : ∀ q ∈ [smallQuad 1 2], Packable q := fun q member => by
    rw [List.mem_singleton.mp member]
    exact packable_smallQuad 1 2
  refine ⟨single _ ⟨⟨fun q member => ⟨one q member, ?_⟩, ?_⟩, trivial⟩,
    concat _ (fun input member => ?_) ⟨trivial, trivial⟩,
    ((merge smallInputs fun input member => ?_).2.2 smallEnd smallEnd_reached).2 (.inl rfl)
      ⟨trivial, trivial⟩⟩
  · rw [List.mem_singleton.mp member]
    exact fun named => by cases named
  · change 1 ≤ 2 ^ 32
    decide
  · change input ∈ [[Event.quad (smallQuad 1 2)]] at member
    rw [List.mem_singleton.mp member]
    exact ⟨Or.inr one, trivial⟩
  · intro q hq named
    rcases List.mem_cons.mp member with rfl | member
    · cases List.mem_singleton.mp hq
      cases named
    · cases List.mem_singleton.mp member
      cases List.mem_singleton.mp hq
      cases named

/-! ## Where offsets wrap -/

/-- A subject of 4 GiB is read back empty. -/
theorem asRef_wraps {q r : QuadRef} (long : q.s.length = 2 ^ 32)
    (reads : (OwnedQuad.fromRef q).asRef = some r) : r.s = [] := by
  have pAt : (OwnedQuad.fromRef q).pAt = 0 := by
    obtain ⟨s, p, o, g, shorthand⟩ := q
    change s.length = 2 ^ 32 at long
    cases g <;> simp only [OwnedQuad.fromRef, asU32, long, Nat.mod_self]
  simp only [OwnedQuad.asRef, pAt, Option.bind_eq_bind, Option.bind_eq_some_iff] at reads
  obtain ⟨s, hs, p, -, o, -, g, -, same⟩ := reads
  rw [sliceAt, if_pos ⟨Nat.le_refl 0, Nat.zero_le _⟩, slice_self] at hs
  rw [← Option.some.inj same, ← Option.some.inj hs]

theorem runLeg_tail_one (q : QuadRef) :
    runLeg (chain (buildOps [.tail 1 .quads]) Terminal.sink) (Chain.start _ Terminal.new) [.quad q]
      = (⟨.tail ⟨1, .quads, [OwnedQuad.fromRef q], [], [], false⟩, 0⟩, Terminal.new) := rfl

/-- The last quad goes through its copy. -/
theorem runSingle_tail_one (q : QuadRef) :
    runSingle [.tail 1 .quads] [.quad q] =
      (OwnedQuad.fromRef q).asRef.map fun r => ⟨⟨[r], 1⟩, [1]⟩ := by
  have buffered : stage.buffered ⟨.tail ⟨1, .quads, [OwnedQuad.fromRef q], [], [], false⟩, 0⟩
      = [(OwnedQuad.fromRef q).asRef] := rfl
  rw [runSingle, runLeg_tail_one]
  change ((Terminal.sink.flush .quad Terminal.new (stage.buffered
    ⟨.tail ⟨1, .quads, [OwnedQuad.fromRef q], [], [], false⟩, 0⟩) >>= _) >>= _) = _
  rw [buffered]
  cases (OwnedQuad.fromRef q).asRef with
  | none => rfl
  | some r => rfl

theorem loses_subject {q : QuadRef} (long : q.s.length = 2 ^ 32) :
    ¬ ∃ ran, runSingle [.tail 1 .quads] [.quad q] = some ran ∧
      ran.Delivers (applyAll [.tail 1 .quads] (quadsOf [.quad q])) := by
  rintro ⟨ran, ended, quads, -⟩
  rw [runSingle_tail_one] at ended
  obtain ⟨r, reads, rfl⟩ := Option.map_eq_some_iff.mp ended
  have same : [r] = [q] := quads
  have empty := asRef_wraps long reads
  rw [(List.cons.inj same).1] at empty
  rw [empty] at long
  exact absurd long (by decide)

/-- The last of one quad is that quad, and `tail 1` delivers another one. -/
theorem not_delivers_longSubject :
    ¬ ∃ ran, runSingle [.tail 1 .quads] [.quad longSubject] = some ran ∧
      ran.Delivers (applyAll [.tail 1 .quads] (quadsOf [.quad longSubject])) := by
  refine loses_subject ?_
  rw [longSubject, List.length_cons, List.length_replicate]
  exact Nat.sub_add_cancel Nat.one_le_two_pow

end Graphy.Pipe
