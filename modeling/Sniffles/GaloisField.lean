import Sniffles.Foundations.BinaryPolynomials
import Sniffles.IceCipher

/-!
# Multiplication in a field of 256 elements

`gf_mult` adds a multiple of `a` for every set bit of `b` and keeps `a` below
the degree of the modulus: a shifted `a` of degree eight is reduced by adding
the modulus once. So the result plus the product of the remaining words stays
the same modulo the modulus, and in the end the result is the remainder of the
product.
-/

namespace Sniffles.IceKey

open BinaryPolynomials Polynomial

/-- A shift to the right lowers a word that is not zero. -/
theorem shifted_lower (word : BitVec 32) (present : word ≠ 0) :
    (word >>> 1).toNat < word.toNat := by
  have positive : word.toNat ≠ 0 := fun zero => present (BitVec.eq_of_toNat_eq zero)
  rw [BitVec.toNat_ushiftRight, Nat.shiftRight_eq_div_pow]
  omega

/-- `while (b)` of `gf_mult`, without a bound on its turns. -/
def gfMultWhile (m a b res : BitVec 32) : BitVec 32 :=
  if _present : b ≠ 0 then
    let res := if b &&& 1 ≠ 0 then res ^^^ a else res
    let a := a <<< 1
    let a := if a ≥ 256 then a ^^^ m else a
    gfMultWhile m a (b >>> 1) res
  else res
termination_by b.toNat
decreasing_by exact shifted_lower b _present

/-- A word below one is zero. -/
theorem word_zero (word : BitVec 32) (few : word.toNat < 2 ^ 0) : word = 0 :=
  BitVec.eq_of_toNat_eq (Nat.lt_one_iff.mp few)

/-- A shift to the right leaves one bit fewer. -/
theorem shifted_fewer (word : BitVec 32) (bits : Nat) (few : word.toNat < 2 ^ (bits + 1)) :
    (word >>> 1).toNat < 2 ^ bits := by
  rw [BitVec.toNat_ushiftRight, Nat.shiftRight_eq_div_pow]
  omega

/-- Thirty-two turns are enough for every word. -/
theorem gfMultWhile_bounded (m : BitVec 32) (bits : Nat) (a b res : BitVec 32)
    (few : b.toNat < 2 ^ bits) : gfMultWhile m a b res = gfMultLoop m bits a b res := by
  induction bits generalizing a b res with
  | zero =>
    rw [gfMultWhile, dif_neg (not_not_intro (word_zero b few)), gfMultLoop]
  | succ bits inductionHypothesis =>
    rw [gfMultWhile, gfMultLoop]
    by_cases zero : b = 0
    · rw [dif_neg (not_not_intro zero), if_pos zero]
    · rw [dif_pos zero, if_neg zero]
      exact inductionHypothesis _ _ _ (shifted_fewer b bits few)

/-- One doubling of `a`: at degree eight the modulus is added. -/
def doubled (m a : BitVec 32) : BitVec 32 := if a <<< 1 ≥ 256 then (a <<< 1) ^^^ m else a <<< 1

/-- A doubled word is below 256 again, and it is the shifted polynomial up to a multiple of
    the modulus. -/
theorem doubled_reduced (m a : BitVec 32) (low : 256 ≤ m.toNat) (high : m.toNat < 512)
    (small : a.toNat < 256) :
    (doubled m a).toNat < 256 ∧ ∃ quotient : (ZMod 2)[X],
      toPoly (doubled m a) = X * toPoly a + quotient * toPoly m := by
  have shifted : toPoly (a <<< 1) = X * toPoly a :=
    toPoly_shift a (Nat.lt_trans small (by decide))
  have double : (a <<< 1).toNat = a.toNat * 2 := by
    rw [BitVec.toNat_shiftLeft, Nat.shiftLeft_eq]
    omega
  have limit : a <<< 1 ≥ 256 ↔ 256 ≤ a.toNat * 2 := by
    rw [ge_iff_le, BitVec.le_def, double]
    rfl
  have eighth (word : Nat) (above : 256 ≤ word) (below : word < 512) : word.testBit 8 = true := by
    rw [Nat.testBit_eq_decide_div_mod_eq]
    simp only [decide_eq_true_eq]
    omega
  have beyond (word index : Nat) (below : word < 512) (further : 9 ≤ index) :
      word.testBit index = false :=
    Nat.testBit_lt_two_pow (Nat.lt_of_lt_of_le below
      (Nat.pow_le_pow_right (by decide) further : 2 ^ 9 ≤ 2 ^ index))
  rw [doubled]
  by_cases reached : a <<< 1 ≥ 256
  case pos =>
    have large := limit.mp reached
    rw [if_pos reached]
    refine ⟨?_, 1, ?_⟩
    · rw [BitVec.toNat_xor, double]
      have reduced : a.toNat * 2 ^^^ m.toNat < 2 ^ 8 := by
        refine Nat.lt_pow_two_of_testBit _ ?_
        intro index far
        rw [Nat.testBit_xor]
        rcases Nat.lt_or_eq_of_le far with further | rfl
        · rw [beyond _ index (by omega) further, beyond _ index high further]
          rfl
        · rw [eighth _ large (by omega), eighth _ low high]
          rfl
      exact reduced
    · rw [toPoly_xor, shifted, one_mul]
  case neg =>
    have less : ¬ 256 ≤ a.toNat * 2 := fun large => reached (limit.mpr large)
    rw [if_neg reached]
    refine ⟨?_, 0, ?_⟩
    · rw [double]
      exact Nat.not_le.mp less
    · rw [shifted, zero_mul, add_zero]

/-- The test of the lowest bit of a word. -/
theorem lowest_set (word : BitVec 32) : word &&& 1 ≠ 0 ↔ word.getLsbD 0 = true := by
  have one : (1 : BitVec 32).toNat = 1 := rfl
  have zero : (0 : BitVec 32).toNat = 0 := rfl
  rw [ne_eq, ← BitVec.toNat_inj, BitVec.toNat_and, one, zero, Nat.and_one_is_mod, BitVec.getLsbD,
    Nat.testBit_zero, decide_eq_true_eq]
  omega

/-- What a set lowest bit of `b` adds to the result. -/
theorem lowest_adds (a b res : BitVec 32) :
    toPoly (if b &&& 1 ≠ 0 then res ^^^ a else res) =
      toPoly res + toPoly a * (if b.getLsbD 0 then (1 : (ZMod 2)[X]) else 0) := by
  by_cases set : b.getLsbD 0 = true
  · rw [if_pos ((lowest_set b).mpr set), if_pos set, mul_one, toPoly_xor]
  · rw [if_neg (fun bit => set ((lowest_set b).mp bit)), if_neg set, mul_zero, add_zero]

/-- The loop keeps the sum of the result and the product of the remaining words, up to
    multiples of the modulus.

Induct over the bits of `b`: the lowest one adds `a`, the others multiply the doubled
word. -/
theorem gfMultLoop_product (m : BitVec 32) (low : 256 ≤ m.toNat) (high : m.toNat < 512) (bits : Nat)
    (a b res : BitVec 32) (few : b.toNat < 2 ^ bits) (small : a.toNat < 256)
    (smallRes : res.toNat < 256) :
    (gfMultLoop m bits a b res).toNat < 256 ∧ ∃ quotient : (ZMod 2)[X],
      toPoly (gfMultLoop m bits a b res) =
        toPoly res + toPoly a * toPoly b + quotient * toPoly m := by
  have done (a b res : BitVec 32) (zero : b = 0) : ∃ quotient : (ZMod 2)[X],
      toPoly res = toPoly res + toPoly a * toPoly b + quotient * toPoly m := by
    refine ⟨0, ?_⟩
    rw [zero, toPoly_zero, mul_zero, zero_mul, add_zero, add_zero]
  induction bits generalizing a b res with
  | zero => exact ⟨smallRes, done a b res (word_zero b few)⟩
  | succ bits inductionHypothesis =>
    rw [gfMultLoop]
    by_cases zero : b = 0
    · rw [if_pos zero]
      exact ⟨smallRes, done a b res zero⟩
    · obtain ⟨smallDouble, multiple, doubles⟩ := doubled_reduced m a low high small
      have smallSum : (if b &&& 1 ≠ 0 then res ^^^ a else res).toNat < 256 := by
        split
        · rw [BitVec.toNat_xor]
          exact Nat.xor_lt_two_pow (show _ < 2 ^ 8 from smallRes) small
        · exact smallRes
      obtain ⟨smallRest, quotient, rest⟩ := inductionHypothesis (doubled m a) (b >>> 1) _
        (shifted_fewer b bits few) smallDouble smallSum
      rw [if_neg zero]
      refine ⟨smallRest, multiple * toPoly (b >>> 1) + quotient, ?_⟩
      calc toPoly (gfMultLoop m bits (doubled m a) (b >>> 1) _)
          = toPoly res + toPoly a * (if b.getLsbD 0 then (1 : (ZMod 2)[X]) else 0) +
              (X * toPoly a + multiple * toPoly m) * toPoly (b >>> 1) +
              quotient * toPoly m := by rw [rest, lowest_adds, doubles]
        _ = toPoly res + toPoly a * ((if b.getLsbD 0 then (1 : (ZMod 2)[X]) else 0) +
              X * toPoly (b >>> 1)) +
              (multiple * toPoly (b >>> 1) + quotient) * toPoly m := by ring
        _ = toPoly res + toPoly a * toPoly b +
              (multiple * toPoly (b >>> 1) + quotient) * toPoly m := by rw [← toPoly_split]

/-- The product is below 256, and it is the remainder of the polynomial product. -/
theorem gfMult_product (a b m : BitVec 32) (low : 256 ≤ m.toNat) (high : m.toNat < 512)
    (small : a.toNat < 256) :
    (gfMult a b m).toNat < 256 ∧
      toPoly (gfMult a b m) = (toPoly a * toPoly b) %ₘ toPoly m := by
  obtain ⟨below, quotient, product⟩ := gfMultLoop_product m low high 32 a b 0 b.isLt small (by decide)
  obtain ⟨monic, degree⟩ := toPoly_monic m 8 low high
  rw [toPoly_zero, zero_add] at product
  have divided : toPoly (gfMult a b m) + toPoly m * (- quotient) = toPoly a * toPoly b := by
    rw [gfMult, product]
    ring
  refine ⟨below, ((div_modByMonic_unique (-quotient) _ monic ⟨divided, ?_⟩).2).symm⟩
  rw [degree]
  exact toPoly_degree _ 8 below

/-- Four reduced multiplications give the remainder of the seventh power. -/
theorem seventh_reduced (base modulus : (ZMod 2)[X]) (monic : modulus.Monic) :
    (base * ((base * (base * base %ₘ modulus) %ₘ modulus) *
        (base * (base * base %ₘ modulus) %ₘ modulus) %ₘ modulus)) %ₘ modulus =
      base ^ 7 %ₘ modulus := by
  have reduced (p q : (ZMod 2)[X]) : p * (q %ₘ modulus) %ₘ modulus = p * q %ₘ modulus := by
    have again : q %ₘ modulus %ₘ modulus = q %ₘ modulus :=
      (modByMonic_eq_self_iff monic).mpr (degree_modByMonic_lt q monic)
    rw [mul_modByMonic, again, ← mul_modByMonic]
  have square (p : (ZMod 2)[X]) : (p %ₘ modulus) * (p %ₘ modulus) %ₘ modulus = p * p %ₘ modulus := by
    rw [← mul_modByMonic]
  have power : base * (base * (base * base) * (base * (base * base))) = base ^ 7 := by ring
  rw [reduced base (base * base), square, reduced, power]

/-- The seventh power is below 256, and it is the remainder of the polynomial power. -/
theorem gfExp7_power (b m : BitVec 32) (low : 256 ≤ m.toNat) (high : m.toNat < 512)
    (small : b.toNat < 256) :
    (gfExp7 b m).toNat < 256 ∧ toPoly (gfExp7 b m) = (toPoly b ^ 7) %ₘ toPoly m := by
  have product (a : BitVec 32) := gfMult_product b a m low high small
  by_cases zero : b = 0
  · rw [gfExp7, if_pos zero, zero, toPoly_zero, zero_pow (by decide), zero_modByMonic]
    exact ⟨by decide, rfl⟩
  · have cube := product (gfMult b b m)
    have sixth := gfMult_product (gfMult b (gfMult b b m) m) (gfMult b (gfMult b b m) m) m low high
      cube.1
    rw [gfExp7, if_neg zero]
    refine ⟨(product _).1, ?_⟩
    rw [(product _).2, sixth.2, cube.2, (product b).2]
    exact seventh_reduced (toPoly b) (toPoly m) (toPoly_monic m 8 low high).1

end Sniffles.IceKey
