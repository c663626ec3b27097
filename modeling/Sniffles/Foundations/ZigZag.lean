import Mathlib.Data.Nat.Bitwise

/-!
# Signed numbers of small magnitude as small unsigned ones

A word is shifted left by one bit and, if it is negative, inverted, so that the
sign ends up in the lowest bit. Reading that bit tells whether the rest has to
be inverted back. The two operations are inverse at every positive width, at the
least number as well, whose magnitude the width cannot hold.
-/

namespace ZigZag

variable {width : Nat}

def encode (number : BitVec width) : BitVec width :=
  (number <<< 1) ^^^ number.sshiftRight (width - 1)

def decode (number : BitVec width) : BitVec width := (number >>> 1) ^^^ -(number &&& 1)

/-- The shifted sign fills the word. -/
theorem sign_bit (number : BitVec width) (index : Nat) (inside : index < width) :
    (number.sshiftRight (width - 1)).getLsbD index = number.msb := by
  rw [BitVec.getLsbD_sshiftRight, decide_eq_false (Nat.not_le_of_lt inside), Bool.not_false,
    Bool.true_and]
  by_cases first : width - 1 + index < width
  · have top : width - 1 + index = width - 1 := by omega
    rw [if_pos first, top, BitVec.msb_eq_getLsbD_last]
  · rw [if_neg first]

/-- The lowest bit of an encoded number is the sign. -/
theorem encode_low (number : BitVec width) (positive : 0 < width) :
    (encode number).getLsbD 0 = number.msb := by
  rw [encode, BitVec.getLsbD_xor, sign_bit number 0 positive, BitVec.getLsbD_shiftLeft]
  simp only [Nat.lt_one_iff, decide_true, Bool.not_true, Bool.and_false, Bool.false_and,
    Bool.false_xor]

/-- Every other bit is the one below it, inverted if the number is negative. -/
theorem encode_bit (number : BitVec width) (index : Nat) (inside : index + 1 < width) :
    (encode number).getLsbD (index + 1) = (number.getLsbD index ^^ number.msb) := by
  have above : ¬ index + 1 < 1 := by omega
  rw [encode, BitVec.getLsbD_xor, sign_bit number (index + 1) inside, BitVec.getLsbD_shiftLeft]
  simp only [inside, above, decide_true, decide_false, Bool.not_false, Bool.true_and,
    Nat.add_sub_cancel]

/-- The lowest bit alone is one or zero. -/
theorem low_and (number : BitVec width) :
    number &&& 1 = if number.getLsbD 0 then BitVec.ofNat width 1 else BitVec.ofNat width 0 := by
  apply BitVec.eq_of_getLsbD_eq
  intro place _
  have masked : (number &&& 1).getLsbD place = (number.getLsbD place && (BitVec.ofNat width 1).getLsbD place) :=
    BitVec.getLsbD_and
  rw [masked, BitVec.getLsbD_one]
  by_cases first : place = 0
  · subst first
    cases number.getLsbD 0 <;> simp
  · cases number.getLsbD 0 <;> simp [first]

/-- The negated lowest bit fills the word. -/
theorem negated_low (number : BitVec width) (index : Nat) (inside : index < width) :
    (-(number &&& 1)).getLsbD index = number.getLsbD 0 := by
  rw [low_and]
  cases number.getLsbD 0 with
  | false => simp
  | true =>
    rw [if_pos rfl, BitVec.neg_one_eq_allOnes, BitVec.getLsbD_allOnes]
    exact decide_eq_true inside

/-- A decoded encoded number is the number. -/
theorem decode_encode (number : BitVec width) : decode (encode number) = number := by
  apply BitVec.eq_of_getLsbD_eq
  intro index inside
  rw [decode, BitVec.getLsbD_xor, BitVec.getLsbD_ushiftRight, negated_low _ index inside,
    encode_low number (Nat.zero_lt_of_lt inside), Nat.add_comm]
  by_cases last : index + 1 < width
  · rw [encode_bit number index last, Bool.xor_assoc, Bool.xor_self, Bool.xor_false]
  · have top : index = width - 1 := by omega
    rw [BitVec.getLsbD_of_ge _ _ (Nat.le_of_not_lt last), Bool.false_xor, top,
      BitVec.msb_eq_getLsbD_last]

end ZigZag
