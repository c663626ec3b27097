import Mathlib.Logic.Equiv.Defs
import Mathlib.Data.Fin.Basic

/-!
# Permuting the bits of a word

A permutation of the places of a word moves its bits. Moving them back along the
inverse restores the word, so no bit is lost, and words joined bit by bit can be
permuted before or after the join.
-/

namespace BitPermutations

variable {width : Nat}

/-- The word whose bit at a place is the one at the source of that place. -/
def permuteBits (source : Equiv.Perm (Fin width)) (word : BitVec width) : BitVec width :=
  BitVec.ofNat width (Nat.ofBits fun place : Fin width => word.getLsbD (source place))

theorem permuteBits_bit (source : Equiv.Perm (Fin width)) (word : BitVec width)
    (place : Fin width) :
    (permuteBits source word).getLsbD place = word.getLsbD (source place) := by
  rw [permuteBits, BitVec.getLsbD_ofNat, Nat.testBit_ofBits_lt _ _ place.isLt,
    decide_eq_true place.isLt, Bool.true_and]

/-- Words with the same bit at every place are equal. -/
theorem word_ext {first second : BitVec width}
    (same : ∀ place : Fin width, first.getLsbD place = second.getLsbD place) : first = second :=
  BitVec.eq_of_getLsbD_eq fun index inside => same ⟨index, inside⟩

/-- The inverse permutation restores the word. -/
@[simp] theorem permuteBits_inverse (source : Equiv.Perm (Fin width)) (word : BitVec width) :
    permuteBits source.symm (permuteBits source word) = word := by
  apply word_ext
  intro place
  rw [permuteBits_bit, permuteBits_bit, Equiv.apply_symm_apply]

/-- No bit is lost: every word comes from exactly one word. -/
theorem permuteBits_bijective (source : Equiv.Perm (Fin width)) :
    Function.Bijective (permuteBits source) := by
  constructor
  · exact Function.LeftInverse.injective (permuteBits_inverse source)
  · intro word
    exact ⟨permuteBits source.symm word, permuteBits_inverse source.symm word⟩

/-- A join of words can be permuted part by part. -/
theorem permuteBits_or (source : Equiv.Perm (Fin width)) (first second : BitVec width) :
    permuteBits source (first ||| second) = permuteBits source first ||| permuteBits source second := by
  apply word_ext
  intro place
  simp only [permuteBits_bit, BitVec.getLsbD_or]

end BitPermutations
