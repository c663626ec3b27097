import Mathlib

/-!
# Words as polynomials over two elements

The bits of a word are the coefficients of a polynomial over the field of two
elements. Exclusive or is addition, a shift that loses no bit is multiplication
by the indeterminate, and words below a power of two are the polynomials below
that degree.
-/

namespace BinaryPolynomials

open Polynomial

variable {width : Nat}

/-- The polynomial whose coefficients are the bits of a word. -/
noncomputable def toPoly (word : BitVec width) : (ZMod 2)[X] :=
  ∑ index ∈ Finset.range width, if word.getLsbD index then X ^ index else 0

theorem coeff_toPoly (word : BitVec width) (index : Nat) :
    (toPoly word).coeff index = if word.getLsbD index then 1 else 0 := by
  have term (other : Nat) : (if word.getLsbD other then (X : (ZMod 2)[X]) ^ other else 0).coeff index =
      if other = index then (if word.getLsbD index then 1 else 0) else 0 := by
    by_cases same : other = index
    · subst same
      cases word.getLsbD other <;> simp
    · have distinct : ¬ index = other := fun equal => same equal.symm
      cases word.getLsbD other <;> simp [coeff_X_pow, same, distinct]
  rw [toPoly, finsetSum_coeff]
  simp only [term]
  rw [Finset.sum_ite_eq' (Finset.range width) index]
  by_cases inside : index < width
  · rw [if_pos (Finset.mem_range.mpr inside)]
  · rw [if_neg (fun member => inside (Finset.mem_range.mp member)),
      BitVec.getLsbD_of_ge word index (Nat.le_of_not_lt inside)]
    rfl

@[simp] theorem toPoly_zero : toPoly (0 : BitVec width) = 0 := by
  ext index
  simp [coeff_toPoly]

/-- Exclusive or adds the polynomials. -/
theorem toPoly_xor (first second : BitVec width) :
    toPoly (first ^^^ second) = toPoly first + toPoly second := by
  ext index
  rw [coeff_add, coeff_toPoly, coeff_toPoly, coeff_toPoly, BitVec.getLsbD_xor]
  cases first.getLsbD index <;> cases second.getLsbD index <;> decide

/-- Bits from a place on are not set in a word below that power of two. -/
theorem getLsbD_small (word : BitVec width) (degree index : Nat) (small : word.toNat < 2 ^ degree)
    (high : degree ≤ index) : word.getLsbD index = false :=
  Nat.testBit_lt_two_pow (Nat.lt_of_lt_of_le small (Nat.pow_le_pow_right (by decide) high))

/-- A shift that loses no bit multiplies by the indeterminate. -/
theorem toPoly_shift (word : BitVec (width + 1)) (room : word.toNat < 2 ^ width) :
    toPoly (word <<< 1) = X * toPoly word := by
  ext index
  rw [coeff_toPoly, BitVec.getLsbD_shiftLeft]
  cases index with
  | zero =>
    rw [coeff_X_mul_zero]
    simp
  | succ index =>
    rw [coeff_X_mul, coeff_toPoly, Nat.add_sub_cancel]
    by_cases inside : index < width
    · have below : index + 1 < width + 1 := by omega
      have above : ¬ index + 1 < 1 := by omega
      simp [below, above]
    · rw [getLsbD_small word width index room (Nat.le_of_not_lt inside), Bool.and_false]

/-- The lowest bit of a word is the constant coefficient. -/
theorem toPoly_split (word : BitVec width) :
    toPoly word = (if word.getLsbD 0 then (1 : (ZMod 2)[X]) else 0) + X * toPoly (word >>> 1) := by
  ext index
  rw [coeff_add, coeff_toPoly]
  cases index with
  | zero =>
    rw [coeff_X_mul_zero, add_zero]
    cases word.getLsbD 0 <;> simp
  | succ index =>
    rw [coeff_X_mul, coeff_toPoly, BitVec.getLsbD_ushiftRight, Nat.add_comm 1 index]
    cases word.getLsbD 0 <;> simp [coeff_one]

/-- A word below a power of two is a polynomial below that degree. -/
theorem toPoly_degree (word : BitVec width) (degree : Nat) (small : word.toNat < 2 ^ degree) :
    (toPoly word).degree < degree := by
  rw [degree_lt_iff_coeff_zero]
  intro index high
  rw [coeff_toPoly, getLsbD_small word degree index small high]
  rfl

/-- A word from a power of two to below the next one is a monic polynomial of that degree. -/
theorem toPoly_monic (word : BitVec width) (degree : Nat) (large : 2 ^ degree ≤ word.toNat)
    (small : word.toNat < 2 ^ (degree + 1)) :
    (toPoly word).Monic ∧ (toPoly word).degree = degree := by
  have bit : word.getLsbD degree = true := by
    rw [BitVec.getLsbD, Nat.testBit_eq_decide_div_mod_eq]
    have quotient : word.toNat / 2 ^ degree = 1 := by
      rw [Nat.pow_succ] at small
      exact Nat.div_eq_of_lt_le (by omega) (by omega)
    rw [quotient]
    rfl
  have top : (toPoly word).coeff degree = 1 := by
    rw [coeff_toPoly, if_pos bit]
  have exact : (toPoly word).degree = degree := by
    refine degree_eq_of_le_of_coeff_ne_zero (degree_le_iff_coeff_zero _ _ |>.mpr ?_) ?_
    · intro index high
      rw [coeff_toPoly, getLsbD_small word (degree + 1) index small (WithBot.coe_lt_coe.mp high)]
      rfl
    · rw [top]
      exact one_ne_zero
  refine ⟨?_, exact⟩
  rw [Monic, leadingCoeff, natDegree_eq_of_degree_eq_some exact, top]

end BinaryPolynomials
