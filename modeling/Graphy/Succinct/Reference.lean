import Graphy.Misc.BitVector
import Graphy.Succinct.RankSelect

/-!
# The bits themselves

What a bit vector over some bits should answer, read off the bits.
-/

namespace Graphy.Succinct

/-- Every operation on the bit vector over the bits returns, with what the bits give, and rank
and select undo each other. -/
structure Agrees (bits : List Bool) : Prop where
  rank1 : ∀ i, i ≤ bits.length →
    (BitVector.ofBits bits).rank1 i = .ok ((bits.take i).count true)
  rank0 : ∀ i, i ≤ bits.length →
    (BitVector.ofBits bits).rank0 i = .ok ((bits.take i).count false)
  select1 : ∀ k, (BitVector.ofBits bits).select1 k = .ok (Graphy.BitVector.select1 bits k)
  select0 : ∀ k, (BitVector.ofBits bits).select0 k = .ok (Graphy.BitVector.select0 bits k)
  nextOne : ∀ i, (BitVector.ofBits bits).nextOne i = .ok (Graphy.BitVector.nextOne bits i)
  inverse1 : ∀ k p, (BitVector.ofBits bits).select1 k = .ok (some p) ↔
    (BitVector.ofBits bits).get p = .ok true ∧ (BitVector.ofBits bits).rank1 p = .ok k
  inverse0 : ∀ k p, (BitVector.ofBits bits).select0 k = .ok (some p) ↔
    (BitVector.ofBits bits).get p = .ok false ∧ (BitVector.ofBits bits).rank0 p = .ok k

/-- The superblocks of two consecutive sampled ones, cut to 32 bits, do not run backwards by more
than one. -/
def StraightAt (bits : List Bool) (j : Nat) : Prop :=
  ∀ p q, Graphy.BitVector.select1 bits (selectSample * j) = some p →
    Graphy.BitVector.select1 bits (selectSample * (j + 1)) = some q →
      p / superBits % 2 ^ 32 ≤ q / superBits % 2 ^ 32 + 1

def Straight (bits : List Bool) : Prop := ∀ j, StraightAt bits j

end Graphy.Succinct
