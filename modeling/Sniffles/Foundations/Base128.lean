import Sniffles.Foundations.BitSequences

/-!
# Numbers in groups of seven bits

A number is written in bytes of seven bits each, the low group first, and every
byte but the last has its high bit set. A reader joins the groups of a byte
sequence into a word of fixed width and stops after a fixed number of them. It
looks only at the bytes it steps over, and it reads back every number that fits
its number of groups.
-/

namespace Base128

open BitSequences

/-- The bytes of a number. -/
def encode (number : Nat) : List Byte :=
  if number < 128 then [BitVec.ofNat 8 number]
  else BitVec.ofNat 8 (number % 128 + 128) :: encode (number / 128)

/-- Another group follows a byte with its high bit set. -/
def continues (byte : Byte) : Bool := byte.getLsbD 7

/-- The group of a byte, at its place in a word. -/
def group (width : Nat) (byte : Byte) (count : Nat) : BitVec width :=
  (byte.setWidth width &&& BitVec.ofNat width 0x7F) <<< (7 * count)

/-- Join at most `left` groups from a position into a word that already holds
    `count` groups. The result has the position after the last byte read. -/
def decodeFrom {width : Nat} (cells : Nat → Byte) :
    Nat → Nat → BitVec width → Nat → BitVec width × Nat
  | 0, _, result, position => (result, position)
  | left + 1, count, result, position =>
    let result := result ||| group width (cells position) count
    if continues (cells position) then decodeFrom cells left (count + 1) result (position + 1)
    else (result, position + 1)

/-- A number below 128 is one byte. -/
theorem encode_last (number : Nat) (small : number < 128) :
    encode number = [BitVec.ofNat 8 number] := by
  rw [encode, if_pos small]

/-- Any other number has its low group in front of the rest. -/
theorem encode_more (number : Nat) (large : 128 ≤ number) :
    encode number = BitVec.ofNat 8 (number % 128 + 128) :: encode (number / 128) := by
  rw [encode, if_neg (Nat.not_lt_of_le large)]

/-- A number takes at least one byte. -/
theorem encode_nonempty (number : Nat) : 0 < (encode number).length := by
  unfold encode
  split <;> simp

/-- Every group beyond the first adds a byte. -/
theorem encode_length_step (number : Nat) :
    (encode number).length = if number < 128 then 1 else (encode (number / 128)).length + 1 := by
  by_cases small : number < 128
  · rw [if_pos small, encode_last number small]
    rfl
  · rw [if_neg small, encode_more number (Nat.le_of_not_lt small)]
    rfl

/-- A number below a power of 128 takes at most as many bytes as its exponent. -/
theorem encode_length (groups number : Nat) (fits : number < 128 ^ (groups + 1)) :
    (encode number).length ≤ groups + 1 := by
  induction groups generalizing number with
  | zero =>
    have small : number < 128 := by simpa using fits
    rw [encode_last number small]
    simp
  | succ groups inductionHypothesis =>
    unfold encode
    split
    · simp
    · have shifted : number / 128 < 128 ^ (groups + 1) := by
        rw [Nat.pow_succ] at fits
        exact Nat.div_lt_of_lt_mul (by omega)
      have rest := inductionHypothesis (number / 128) shifted
      simp only [List.length_cons]
      omega

/-- The bits of a group are the low seven bits of its byte. -/
theorem group_bit (width : Nat) (byte : Byte) (count index : Nat) :
    (group width byte count).getLsbD index =
      (decide (index < width) && decide (7 * count ≤ index) && decide (index - 7 * count < 7) &&
        byte.getLsbD (index - 7 * count)) := by
  have mask : (127 : Nat) = 2 ^ 7 - 1 := rfl
  simp only [group, BitVec.getLsbD_shiftLeft, BitVec.getLsbD_and, BitVec.getLsbD_setWidth,
    BitVec.getLsbD_ofNat, mask, Nat.testBit_two_pow_sub_one]
  by_cases inside : index < width
  · by_cases reached : 7 * count ≤ index
    · have shifted : index - 7 * count < width := by omega
      simp [inside, reached, shifted, Bool.and_comm]
    · simp [inside, reached, Nat.lt_of_not_le reached]
  · simp [inside]

/-- The last group of a number is the number itself. -/
theorem group_last (width count number : Nat) (small : number < 128) :
    group width (BitVec.ofNat 8 number) count = BitVec.ofNat width number <<< (7 * count) := by
  apply BitVec.eq_of_getLsbD_eq
  intro index inside
  rw [group_bit, BitVec.getLsbD_shiftLeft, BitVec.getLsbD_ofNat, BitVec.getLsbD_ofNat]
  by_cases reached : 7 * count ≤ index
  · by_cases low : index - 7 * count < 7
    · have inByte : index - 7 * count < 8 := Nat.lt_succ_of_lt low
      have shifted : index - 7 * count < width := by omega
      simp [inside, reached, low, inByte, shifted]
    · have power : (2 : Nat) ^ 7 ≤ 2 ^ (index - 7 * count) :=
        Nat.pow_le_pow_right (by decide) (Nat.le_of_not_lt low)
      have high : number < 2 ^ (index - 7 * count) := Nat.lt_of_lt_of_le small power
      simp [low, Nat.testBit_lt_two_pow high]
  · simp [reached, Nat.lt_of_not_le reached]

/-- A group with its high bit set holds the low bits, and the number without
    them stands one group higher. -/
theorem group_more (width count number : Nat) :
    group width (BitVec.ofNat 8 (number % 128 + 128)) count |||
        BitVec.ofNat width (number / 128) <<< (7 * (count + 1)) =
      BitVec.ofNat width number <<< (7 * count) := by
  have power : (128 : Nat) = 2 ^ 7 := rfl
  apply BitVec.eq_of_getLsbD_eq
  intro index inside
  rw [BitVec.getLsbD_or, group_bit, BitVec.getLsbD_shiftLeft, BitVec.getLsbD_shiftLeft,
    BitVec.getLsbD_ofNat, BitVec.getLsbD_ofNat, BitVec.getLsbD_ofNat, power, Nat.testBit_div_two_pow]
  have shifted : index - 7 * count < width := by omega
  by_cases reached : 7 * count ≤ index
  · by_cases low : index - 7 * count < 7
    · have digit : (number % 2 ^ 7 + 2 ^ 7).testBit (index - 7 * count) =
          number.testBit (index - 7 * count) := by
        rw [Nat.add_comm, Nat.testBit_two_pow_add_gt low, Nat.testBit_mod_two_pow]
        simp [low]
      have before : index < 7 * (count + 1) := by omega
      have inByte : index - 7 * count < 8 := Nat.lt_succ_of_lt low
      rw [digit]
      simp [inside, reached, low, before, inByte, shifted]
    · have place : 7 + (index - 7 * (count + 1)) = index - 7 * count := by omega
      have past : ¬ index < 7 * count := by omega
      have pastNext : ¬ index < 7 * (count + 1) := by omega
      have shiftedNext : index - 7 * (count + 1) < width := by omega
      rw [Nat.add_comm _ 7, place]
      simp [inside, low, past, pastNext, shifted, shiftedNext]
  · have before : index < 7 * (count + 1) := by omega
    simp [reached, Nat.lt_of_not_le reached, before]

/-- A byte below 128 ends a number. -/
theorem continues_last (number : Nat) (small : number < 128) :
    continues (BitVec.ofNat 8 number) = false := by
  have clear : number.testBit 7 = false := Nat.testBit_lt_two_pow small
  rw [continues, BitVec.getLsbD_ofNat, clear, Bool.and_false]

/-- A byte from 128 up continues it. -/
theorem continues_more (number : Nat) :
    continues (BitVec.ofNat 8 (number % 128 + 128)) = true := by
  have low : (number % 128).testBit 7 = false :=
    Nat.testBit_lt_two_pow (Nat.mod_lt number (by decide))
  have high : (128 + number % 128).testBit 7 = true := by
    have power : (128 : Nat) + number % 128 = 2 ^ 7 + number % 128 := rfl
    rw [power, Nat.testBit_two_pow_add_eq, low, Bool.not_false]
  rw [continues, BitVec.getLsbD_ofNat, Nat.add_comm, high]
  rfl

/-- A sequence that stores the bytes of a number is read back as that number,
    up to the byte after them, if they are not more than the groups allowed. -/
theorem decodeFrom_encode {width : Nat} (cells : Nat → Byte) (left count number position : Nat)
    (result : BitVec width) (fits : (encode number).length ≤ left)
    (stored : ∀ index (within : index < (encode number).length),
      cells (position + index) = (encode number)[index]) :
    decodeFrom cells left count result position =
      (result ||| BitVec.ofNat width number <<< (7 * count), position + (encode number).length) := by
  induction left generalizing count number position result with
  | zero =>
    have := encode_nonempty number
    omega
  | succ left inductionHypothesis =>
    have first := stored 0 (encode_nonempty number)
    rw [Nat.add_zero] at first
    by_cases small : number < 128
    · have only := encode_last number small
      simp only [only, List.getElem_cons_zero] at first
      simp only [decodeFrom, first, continues_last number small, group_last width count number small,
        only, List.length_singleton, Bool.false_eq_true, if_false]
    · have more := encode_more number (Nat.le_of_not_lt small)
      simp only [more, List.getElem_cons_zero] at first
      have rest := inductionHypothesis (count + 1) (number / 128) (position + 1)
        (result ||| group width (BitVec.ofNat 8 (number % 128 + 128)) count)
        (by rw [more, List.length_cons] at fits; omega)
        (by
          intro index within
          have next := stored (index + 1) (by rw [more, List.length_cons]; omega)
          simp only [more, List.getElem_cons_succ] at next
          rw [Nat.add_right_comm]
          exact next)
      simp only [decodeFrom, first, continues_more number, if_true, rest, BitVec.or_assoc,
        group_more, more, List.length_cons, Prod.mk.injEq, true_and]
      omega

/-- Reading passes at least one byte and at most one for each group allowed. -/
theorem decodeFrom_end {width : Nat} (cells : Nat → Byte) (left count position : Nat)
    (result : BitVec width) :
    position < (decodeFrom cells (left + 1) count result position).2 ∧
      (decodeFrom cells (left + 1) count result position).2 ≤ position + (left + 1) := by
  induction left generalizing count position result with
  | zero =>
    simp only [decodeFrom]
    split <;> simp
  | succ left inductionHypothesis =>
    rw [decodeFrom]
    split
    · have rest := inductionHypothesis (count + 1) (position + 1)
        (result ||| group width (cells position) count)
      omega
    · simp only
      omega

/-- Sequences that agree on the bytes that were passed give the same result. -/
theorem decodeFrom_local {width : Nat} (cells others : Nat → Byte) (left count position : Nat)
    (result : BitVec width)
    (agree : ∀ index, position ≤ index →
      index < (decodeFrom cells left count result position).2 → cells index = others index) :
    decodeFrom others left count result position = decodeFrom cells left count result position := by
  induction left generalizing count position result with
  | zero => rfl
  | succ left inductionHypothesis =>
    have here : cells position = others position :=
      agree position (Nat.le_refl _) (decodeFrom_end cells left count position result).1
    simp only [decodeFrom, ← here] at agree ⊢
    split
    · rename_i more
      simp only [more, if_true] at agree
      apply inductionHypothesis
      intro index reached within
      exact agree index (by omega) within
    · rfl

end Base128
