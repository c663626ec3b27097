import Sniffles.IceCipher
import Sniffles.Foundations.FeistelNetwork

/-!
# Encryption and decryption are inverse

Both block loops are runs of one Feistel network whose mixing is exclusive or
and whose round function is `ice_f`. The decryption loop visits the subkeys of
the encryption loop in reverse, because the round count is even. Packing at the
start of one direction undoes the unpacking at the end of the other, which also
exchanges the halves.
-/

namespace Sniffles.IceKey

open BitSequences

/-- The network of one cipher, over the contents of its S-box table. -/
def network (sbox : SBoxes) (subkeys : List IceSubkey) (halves : BitVec 32 × BitVec 32) :
    BitVec 32 × BitVec 32 :=
  FeistelNetwork.run (· ^^^ ·) (iceF sbox) subkeys halves

/-- Mixing a word in twice removes it. -/
theorem xor_cancels (left right : BitVec 32) : left ^^^ right ^^^ right = left := by
  rw [BitVec.xor_assoc, BitVec.xor_self, BitVec.xor_zero]

/-- The ascending loop is the network over its subkeys in order. -/
theorem encryptLoop_network (sbox : SBoxes) (keysched : Nat → IceSubkey) (iterations i : Nat)
    (l r : BitVec 32) :
    encryptLoop sbox keysched iterations i l r =
      network sbox ((List.range' i (2 * iterations)).map keysched) (l, r) := by
  induction iterations generalizing i l r with
  | zero => rfl
  | succ iterations inductionHypothesis =>
    rw [encryptLoop, inductionHypothesis]
    rfl

/-- The descending loop is the network over the same subkeys in reverse. -/
theorem decryptLoop_network (sbox : SBoxes) (keysched : Nat → IceSubkey) (iterations : Nat)
    (l r : BitVec 32) :
    decryptLoop sbox keysched iterations (2 * iterations - 1) l r =
      network sbox ((List.range' 0 (2 * iterations)).map keysched).reverse (l, r) := by
  induction iterations generalizing l r with
  | zero => rfl
  | succ iterations inductionHypothesis =>
    have last : 2 * (iterations + 1) - 1 = 2 * iterations + 1 := by omega
    have previous : 2 * iterations + 1 - 2 = 2 * iterations - 1 := by omega
    have keys : List.range' 0 (2 * (iterations + 1)) =
        List.range' 0 (2 * iterations) ++ [2 * iterations, 2 * iterations + 1] := by
      simp [Nat.mul_add, List.range'_concat]
    rw [decryptLoop, last, previous, inductionHypothesis, keys]
    simp [network, FeistelNetwork.run, FeistelNetwork.round]

/-- The bits of a packed half, byte by byte. -/
theorem packHalf_bit (b0 b1 b2 b3 : Byte) (index : Nat) (inside : index < 32) :
    (packHalf b0 b1 b2 b3).getLsbD index =
      if index < 8 then b3.getLsbD index
      else if index < 16 then b2.getLsbD (index - 8)
      else if index < 24 then b1.getLsbD (index - 16)
      else b0.getLsbD (index - 24) := by
  have outside (b : Byte) (offset : Nat) (high : 8 ≤ offset) : b.getLsbD offset = false :=
    BitVec.getLsbD_of_ge b offset high
  simp only [packHalf, BitVec.getLsbD_or, BitVec.getLsbD_shiftLeft, BitVec.getLsbD_setWidth, inside]
  by_cases first : index < 8
  · have second : index < 16 := by omega
    have third : index < 24 := by omega
    simp [first, second, third]
  · by_cases second : index < 16
    · have third : index < 24 := by omega
      have shifted : index - 8 < 32 := by omega
      simp [first, second, third, outside b3 index (by omega), shifted]
    · by_cases third : index < 24
      · have shifted : index - 16 < 32 := by omega
        simp [first, second, third, outside b3 index (by omega), outside b2 (index - 8) (by omega),
          shifted]
      · have shifted : index - 24 < 32 := by omega
        simp [first, second, third, outside b3 index (by omega), outside b2 (index - 8) (by omega),
          outside b1 (index - 16) (by omega), shifted]

/-- Each byte of a packed half is found again at its lane. -/
theorem packHalf_lane (b0 b1 b2 b3 : Byte) (lane : Nat) (inside : lane < 4) :
    (packHalf b0 b1 b2 b3 >>> (8 * lane)).setWidth 8 = [b3, b2, b1, b0][lane] := by
  apply BitVec.eq_of_getLsbD_eq
  intro index within
  rw [BitVec.getLsbD_setWidth, BitVec.getLsbD_ushiftRight, packHalf_bit _ _ _ _ _ (by omega)]
  have placed : lane = 0 ∨ lane = 1 ∨ lane = 2 ∨ lane = 3 := by omega
  rcases placed with rfl | rfl | rfl | rfl
  · simp [within]
  · have first : ¬ 8 + index < 8 := by omega
    have second : 8 + index < 16 := by omega
    simp [within, first, second]
  · have first : ¬ 16 + index < 8 := by omega
    have second : ¬ 16 + index < 16 := by omega
    have third : 16 + index < 24 := by omega
    simp [within, first, second, third]
  · have first : ¬ 24 + index < 8 := by omega
    have second : ¬ 24 + index < 16 := by omega
    have third : ¬ 24 + index < 24 := by omega
    simp [within, first, second, third]

/-- The four bytes of a packed half, the most significant one first. -/
theorem packHalf_bytes (b0 b1 b2 b3 : Byte) :
    (packHalf b0 b1 b2 b3 >>> 24).setWidth 8 = b0 ∧ (packHalf b0 b1 b2 b3 >>> 16).setWidth 8 = b1 ∧
      (packHalf b0 b1 b2 b3 >>> 8).setWidth 8 = b2 ∧ (packHalf b0 b1 b2 b3).setWidth 8 = b3 := by
  have lane := packHalf_lane b0 b1 b2 b3
  have lowest := lane 0 (by decide)
  rw [Nat.mul_zero, BitVec.ushiftRight_zero] at lowest
  exact ⟨lane 3 (by decide), lane 2 (by decide), lane 1 (by decide), lowest⟩

/-- A word is the packing of its four byte lanes. -/
theorem packHalf_lanes (word : BitVec 32) :
    packHalf ((word >>> 24).setWidth 8) ((word >>> 16).setWidth 8) ((word >>> 8).setWidth 8)
      (word.setWidth 8) = word := by
  apply BitVec.eq_of_getLsbD_eq
  intro index inside
  rw [packHalf_bit _ _ _ _ index inside]
  simp only [BitVec.getLsbD_setWidth, BitVec.getLsbD_ushiftRight]
  by_cases first : index < 8
  · simp [first]
  · by_cases second : index < 16
    · have lane : index - 8 < 8 := by omega
      have place : 8 + (index - 8) = index := by omega
      simp [first, second, lane, place]
    · by_cases third : index < 24
      · have lane : index - 16 < 8 := by omega
        have place : 16 + (index - 16) = index := by omega
        simp [first, second, third, lane, place]
      · have lane : index - 24 < 8 := by omega
        have place : 24 + (index - 24) = index := by omega
        simp [first, second, third, lane, place]

/-- Packing an unpacked block gives its halves in stored order. -/
theorem pack_unpack (l r : BitVec 32) : pack (unpack l r) = (r, l) :=
  Prod.ext (packHalf_lanes r) (packHalf_lanes l)

/-- Unpacking the halves of a block, in stored order, gives the block. -/
theorem unpack_pack (text : Block) : unpack (pack text).2 (pack text).1 = text := by
  have lanes (b0 b1 b2 b3 : Byte) := packHalf_lane b0 b1 b2 b3
  apply Vector.ext
  intro index inside
  have placed : index = 0 ∨ index = 1 ∨ index = 2 ∨ index = 3 ∨ index = 4 ∨ index = 5 ∨ index = 6 ∨
      index = 7 := by omega
  rcases placed with rfl | rfl | rfl | rfl | rfl | rfl | rfl | rfl
  · exact lanes _ _ _ _ 3 (by decide)
  · exact lanes _ _ _ _ 2 (by decide)
  · exact lanes _ _ _ _ 1 (by decide)
  · exact lanes _ _ _ _ 0 (by decide)
  · exact lanes _ _ _ _ 3 (by decide)
  · exact lanes _ _ _ _ 2 (by decide)
  · exact lanes _ _ _ _ 1 (by decide)
  · exact lanes _ _ _ _ 0 (by decide)

/-- Encryption packs, runs the network over the whole schedule and unpacks. -/
theorem encrypt_network (sbox : SBoxes) (key : IceKey) (text : Block) :
    encrypt sbox key text =
      let halves := network sbox ((List.range' 0 key.rounds).map key.keysched) (pack text)
      unpack halves.1 halves.2 := by
  have even : 2 * ((key.rounds + 1) / 2) = key.rounds := by
    have := key.paired
    omega
  simp only [encrypt, encryptLoop_network, even]

/-- Decryption does the same with the schedule reversed. -/
theorem decrypt_network (sbox : SBoxes) (key : IceKey) (text : Block) :
    decrypt sbox key text =
      let halves := network sbox ((List.range' 0 key.rounds).map key.keysched).reverse (pack text)
      unpack halves.1 halves.2 := by
  have even : 2 * (key.rounds / 2) = key.rounds := by
    have := key.paired
    omega
  have loop := decryptLoop_network sbox key.keysched (key.rounds / 2)
  rw [even] at loop
  simp only [decrypt, loop]

/-- A network run between packing and unpacking is undone by the reversed run. -/
theorem network_reverse_unpack (sbox : SBoxes) (subkeys : List IceSubkey) (text : Block) :
    (let there := network sbox subkeys (pack text)
     let back := network sbox subkeys.reverse (pack (unpack there.1 there.2))
     unpack back.1 back.2) = text := by
  have undone : network sbox subkeys.reverse (network sbox subkeys (pack text)).swap =
      (pack text).swap :=
    FeistelNetwork.run_reverse (· ^^^ ·) (iceF sbox) xor_cancels subkeys (pack text)
  have swapped : ((network sbox subkeys (pack text)).2, (network sbox subkeys (pack text)).1) =
      (network sbox subkeys (pack text)).swap := rfl
  simp only [pack_unpack]
  rw [swapped, undone]
  exact unpack_pack text

/-- Decryption undoes encryption, for every key with any schedule contents. -/
theorem decrypt_encrypt (sbox : SBoxes) (key : IceKey) (text : Block) :
    decrypt sbox key (encrypt sbox key text) = text := by
  rw [decrypt_network, encrypt_network]
  exact network_reverse_unpack sbox _ text

/-- Encryption undoes decryption, for every key with any schedule contents. -/
theorem encrypt_decrypt (sbox : SBoxes) (key : IceKey) (text : Block) :
    encrypt sbox key (decrypt sbox key text) = text := by
  have undone := network_reverse_unpack sbox
    ((List.range' 0 key.rounds).map key.keysched).reverse text
  rw [List.reverse_reverse] at undone
  rw [encrypt_network, decrypt_network]
  exact undone

end Sniffles.IceKey
