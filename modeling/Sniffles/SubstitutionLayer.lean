import Sniffles.Foundations.BitPermutations
import Sniffles.GaloisField
import Sniffles.IceInverse
import Sniffles.IceSchedule

/-!
# The substitution layer

Every entry of the permutation table has one bit, and no two have the same, so
`ice_perm32` moves the bits of a word and loses none. The table entries that
`ice_f` joins are permuted bytes in four different lanes; joining them is the
permutation of their concatenation, and moving the bits back gives the bytes.
-/

namespace Sniffles.IceKey

open BinaryPolynomials BitPermutations BitSequences CheckedMemory Polynomial

/-- The place to which `ice_pbox` moves each bit. -/
def pboxTarget : Vector (Fin 32) 32 :=
  #v[0, 7, 10, 13, 19, 21, 24, 30, 3, 5, 8, 14, 16, 23, 26, 29, 2, 4, 9, 15, 17, 22, 27, 28, 1, 6, 11, 12, 18, 20, 25, 31]

/-- The bit that `ice_pbox` moves to each place. -/
def pboxSource : Vector (Fin 32) 32 :=
  #v[0, 24, 16, 8, 17, 9, 25, 1, 10, 18, 2, 26, 27, 3, 11, 19, 12, 20, 28, 4, 29, 5, 21, 13, 6, 30, 14, 22, 23, 15, 7, 31]

theorem pboxTarget_source : ∀ place : Fin 32, pboxTarget.get (pboxSource.get place) = place := by
  decide

theorem pboxSource_target : ∀ place : Fin 32, pboxSource.get (pboxTarget.get place) = place := by
  decide

/-- `ice_pbox` as a permutation of the places of a word. -/
def pbox : Equiv.Perm (Fin 32) where
  toFun := pboxSource.get
  invFun := pboxTarget.get
  left_inv := pboxTarget_source
  right_inv := pboxSource_target

/-- An entry of the table has the one bit to which it moves. -/
theorem icePbox_bit : ∀ entry place : Fin 32,
    (icePbox.getD entry 0).getLsbD place = decide (pbox place = entry) := by
  decide

/-- The loop joins to the result the entries of the bits that are set.

Induct over the remaining bits: the lowest one selects the current entry, the others the
entries behind it. -/
theorem icePerm32Loop_bit (bits index : Nat) (x res : BitVec 32) (total : index + bits = 32)
    (place : Fin 32) :
    (icePerm32Loop bits index x res).getLsbD place =
      (res.getLsbD place ||
        (decide (index ≤ (pbox place).val) && x.getLsbD ((pbox place).val - index))) := by
  induction bits generalizing index x res with
  | zero =>
    have below : ¬ index ≤ (pbox place).val := by
      have := (pbox place).isLt
      omega
    rw [icePerm32Loop, decide_eq_false below, Bool.false_and, Bool.or_false]
  | succ bits inductionHypothesis =>
    rw [icePerm32Loop]
    by_cases zero : x = 0
    · rw [if_pos zero, zero]
      simp
    · have entry := icePbox_bit ⟨index, by omega⟩ place
      have joined : (if x &&& 1 ≠ 0 then res ||| icePbox.getD index 0 else res).getLsbD place =
          (res.getLsbD place || (x.getLsbD 0 && decide (pbox place = ⟨index, by omega⟩))) := by
        by_cases set : x.getLsbD 0 = true
        · rw [if_pos ((lowest_set x).mpr set), BitVec.getLsbD_or, entry, set, Bool.true_and]
        · rw [if_neg (fun bit => set ((lowest_set x).mp bit)), Bool.eq_false_of_not_eq_true set,
            Bool.false_and, Bool.or_false]
      rw [if_neg zero, inductionHypothesis (index + 1) _ _ (by omega), joined,
        BitVec.getLsbD_ushiftRight, Bool.or_assoc]
      congr 1
      rcases Nat.lt_trichotomy index (pbox place).val with before | same | behind
      · have distinct : ¬ pbox place = ⟨index, by omega⟩ := fun equal =>
          absurd (congrArg Fin.val equal) (Nat.ne_of_gt before)
        have next : 1 + ((pbox place).val - (index + 1)) = (pbox place).val - index := by omega
        have after : index ≤ (pbox place).val := Nat.le_of_lt before
        simp [distinct, next, before, after]
      · have equal : pbox place = ⟨index, by omega⟩ := Fin.ext same.symm
        simp [equal]
      · have distinct : ¬ pbox place = ⟨index, by omega⟩ := fun equal =>
          absurd (congrArg Fin.val equal) (Nat.ne_of_lt behind)
        have outside : ¬ index ≤ (pbox place).val := Nat.not_le.mpr behind
        have further : ¬ index + 1 ≤ (pbox place).val := by omega
        simp [distinct, outside, further]

/-- `ice_perm32` moves the bits as the table says. -/
theorem icePerm32_permutes (x : BitVec 32) : icePerm32 x = permuteBits pbox x := by
  apply word_ext
  intro place
  rw [icePerm32, icePerm32Loop_bit 32 0 x 0 rfl, permuteBits_bit]
  simp

/-- `while (x)` of `ice_perm32`, without a bound on its turns, reading the table at `pbox`. -/
def icePerm32While (pbox : Nat) (x res : BitVec 32) : Checked (BitVec 32) :=
  if _present : x ≠ 0 then do
    let res ← if x &&& 1 ≠ 0 then (do
      let entry ← readCell icePbox pbox
      .ok (res ||| entry))
    else .ok res
    icePerm32While (pbox + 1) (x >>> 1) res
  else .ok res
termination_by x.toNat
decreasing_by exact shifted_lower x _present

/-- The table is read inside as long as there is an entry for every remaining bit.

Induct over the remaining bits: after the last one the word is zero. -/
theorem icePerm32While_inside (bits pbox : Nat) (x res : BitVec 32) (total : pbox + bits = 32)
    (few : x.toNat < 2 ^ bits) :
    icePerm32While pbox x res = .ok (icePerm32Loop bits pbox x res) := by
  induction bits generalizing pbox x res with
  | zero =>
    rw [icePerm32While, dif_neg (not_not_intro (word_zero x few))]
    rfl
  | succ bits inductionHypothesis =>
    have inside : pbox < icePbox.length := by
      have entries : icePbox.length = 32 := rfl
      omega
    have entry : readCell icePbox pbox = .ok (icePbox.getD pbox 0) := by
      rw [readCell, dif_pos inside, List.getD_eq_getElem _ _ inside]
    rw [icePerm32While, icePerm32Loop]
    by_cases zero : x = 0
    · rw [dif_neg (not_not_intro zero), if_pos zero]
    · rw [dif_pos zero, if_neg zero, entry, ok_bind]
      by_cases set : x &&& 1 ≠ 0
      · rw [if_pos set, if_pos set, ok_bind]
        exact inductionHypothesis _ _ _ (by omega) (shifted_fewer x bits few)
      · rw [if_neg set, if_neg set, ok_bind]
        exact inductionHypothesis _ _ _ (by omega) (shifted_fewer x bits few)

/-- Move the bits of a word back. -/
def iceUnperm32 (x : BitVec 32) : BitVec 32 := permuteBits pbox.symm x

theorem iceUnperm32_perm (x : BitVec 32) : iceUnperm32 (icePerm32 x) = x := by
  rw [iceUnperm32, icePerm32_permutes, permuteBits_inverse]

/-- Joined words are permuted part by part. -/
theorem icePerm32_or (first second : BitVec 32) :
    icePerm32 (first ||| second) = icePerm32 first ||| icePerm32 second := by
  simp only [icePerm32_permutes, permuteBits_or]

/-- The row of the S-box parameters that an index selects. -/
def sboxRow (i : Nat) : Nat := (i &&& 0x1) ||| ((i &&& 0x200) >>> 8)

/-- The power that an S-box computes for an index. -/
def sboxPower (box i : Nat) : BitVec 32 :=
  gfExp7 (BitVec.ofNat 32 ((i >>> 1) &&& 0xff) ^^^ (iceSxor.getD box []).getD (sboxRow i) 0)
    ((iceSmod.getD box []).getD (sboxRow i) 0)

/-- The output byte of an S-box, before its lane and the permutation. -/
def sboxByte (box i : Nat) : Byte := (sboxPower box i).setWidth 8

theorem sboxRow_inside (i : Nat) : sboxRow i < 4 := by
  have low : i &&& 0x1 < 2 ^ 2 := Nat.lt_of_le_of_lt Nat.and_le_right (by decide)
  have masked : i &&& 0x200 ≤ 0x200 := Nat.and_le_right
  have high : (i &&& 0x200) >>> 8 < 2 ^ 2 := by
    rw [Nat.shiftRight_eq_div_pow]
    omega
  exact Nat.or_lt_two_pow low high

/-- Every modulus has degree eight and every added word is a byte. -/
theorem sboxParameters : ∀ box row : Fin 4,
    ((iceSxor.getD box []).getD row 0).toNat < 256 ∧
      256 ≤ ((iceSmod.getD box []).getD row 0).toNat ∧
      ((iceSmod.getD box []).getD row 0).toNat < 512 := by
  decide

/-- The power is a byte: the column and the added word are, and the modulus has degree
    eight. -/
theorem sboxPower_small (box i : Nat) (known : box < 4) : (sboxPower box i).toNat < 256 := by
  obtain ⟨added, low, high⟩ := sboxParameters ⟨box, known⟩ ⟨sboxRow i, sboxRow_inside i⟩
  have column : (BitVec.ofNat 32 ((i >>> 1) &&& 0xff)).toNat < 2 ^ 8 := by
    have masked : (i >>> 1) &&& 0xff ≤ 0xff := Nat.and_le_right
    rw [BitVec.toNat_ofNat]
    omega
  refine (gfExp7_power _ _ low high ?_).1
  rw [BitVec.toNat_xor]
  exact Nat.xor_lt_two_pow column added

/-- A table entry is the permuted output byte, in the lane of its box. -/
theorem iceSboxesInit_byte (box i : Nat) (known : box < 4) (inside : i < 1024) :
    iceSboxesInit box i = icePerm32 ((sboxByte box i).setWidth 32 <<< (24 - 8 * box)) := by
  have whole : (sboxByte box i).setWidth 32 = sboxPower box i := by
    have small := sboxPower_small box i known
    apply BitVec.eq_of_toNat_eq
    rw [sboxByte, BitVec.toNat_setWidth, BitVec.toNat_setWidth]
    omega
  rw [iceSboxesInit, if_pos ⟨known, inside⟩, whole]
  rfl

/-- The four bytes that the S-boxes put out in a round, the first one most significant. -/
def roundBytes (p : BitVec 32) (sk : IceSubkey) : List Byte :=
  (tableIndices p sk).mapIdx sboxByte

/-- The concatenation of the four bytes. -/
def roundWord (p : BitVec 32) (sk : IceSubkey) : BitVec 32 :=
  packHalf ((roundBytes p sk).getD 0 0) ((roundBytes p sk).getD 1 0) ((roundBytes p sk).getD 2 0)
    ((roundBytes p sk).getD 3 0)

/-- With subkeys of twenty bits, joining the table entries permutes the concatenation of the
    output bytes. -/
theorem iceF_permutes (p : BitVec 32) (sk : IceSubkey)
    (small : ∀ slot : Fin 3, (sk.val.get slot).toNat < 2 ^ 20) :
    iceF iceSboxesInit p sk = icePerm32 (roundWord p sk) := by
  have inside := tableIndices_inside p sk small
  obtain ⟨i0, i1, i2, i3, indices⟩ : ∃ i0 i1 i2 i3, tableIndices p sk = [i0, i1, i2, i3] :=
    ⟨_, _, _, _, rfl⟩
  have bytes : roundBytes p sk = [sboxByte 0 i0, sboxByte 1 i1, sboxByte 2 i2, sboxByte 3 i3] := by
    rw [roundBytes, indices]
    rfl
  rw [indices] at inside
  rw [iceF_tables, roundWord, bytes, indices, packHalf]
  simp only [icePerm32_or]
  change iceSboxesInit 0 i0 ||| iceSboxesInit 1 i1 ||| iceSboxesInit 2 i2 ||| iceSboxesInit 3 i3 = _
  rw [iceSboxesInit_byte 0 i0 (by decide) (inside i0 (by simp)),
    iceSboxesInit_byte 1 i1 (by decide) (inside i1 (by simp)),
    iceSboxesInit_byte 2 i2 (by decide) (inside i2 (by simp)),
    iceSboxesInit_byte 3 i3 (by decide) (inside i3 (by simp))]
  simp

/-- Each output byte is found again in its lane after the bits have been moved back. -/
theorem roundBytes_recovered (p : BitVec 32) (sk : IceSubkey) (box : Nat) (known : box < 4) :
    ((roundWord p sk) >>> (24 - 8 * box)).setWidth 8 = (roundBytes p sk).getD box 0 := by
  have lane := packHalf_lane ((roundBytes p sk).getD 0 0) ((roundBytes p sk).getD 1 0)
    ((roundBytes p sk).getD 2 0) ((roundBytes p sk).getD 3 0) (3 - box) (by omega)
  have shift : 24 - 8 * box = 8 * (3 - box) := by omega
  rw [roundWord, shift, lane]
  have cases : box = 0 ∨ box = 1 ∨ box = 2 ∨ box = 3 := by omega
  rcases cases with rfl | rfl | rfl | rfl <;> rfl

/-- The permutation is a bijection and reads only its table; multiplication ends below 256
    with the remainder of the carry-less product; and a round permutes the concatenation of
    its four output bytes, which can be recovered from the result. -/
theorem substitution_lossless :
    (Function.Bijective icePerm32 ∧ ∀ x, icePerm32While 0 x 0 = .ok (icePerm32 x)) ∧
      (∀ a b m : BitVec 32, 256 ≤ m.toNat → m.toNat < 512 → a.toNat < 256 →
        gfMultWhile m a b 0 = gfMult a b m ∧ (gfMult a b m).toNat < 256 ∧
          toPoly (gfMult a b m) = (toPoly a * toPoly b) %ₘ toPoly m) ∧
      ∀ (p : BitVec 32) (sk : IceSubkey), (∀ slot : Fin 3, (sk.val.get slot).toNat < 2 ^ 20) →
        (∀ index ∈ tableIndices p sk, index < 1024) ∧
          iceF iceSboxesInit p sk = icePerm32 (roundWord p sk) ∧
          ∀ box < 4, (iceUnperm32 (iceF iceSboxesInit p sk) >>> (24 - 8 * box)).setWidth 8 =
            (roundBytes p sk).getD box 0 := by
  refine ⟨⟨?_, ?_⟩, ?_, ?_⟩
  · rw [show icePerm32 = permuteBits pbox from funext icePerm32_permutes]
    exact permuteBits_bijective pbox
  · intro x
    exact icePerm32While_inside 32 0 x 0 rfl x.isLt
  · intro a b m low high small
    exact ⟨gfMultWhile_bounded m 32 a b 0 b.isLt, gfMult_product a b m low high small⟩
  · intro p sk small
    refine ⟨tableIndices_inside p sk small, iceF_permutes p sk small, ?_⟩
    intro box known
    rw [iceF_permutes p sk small, iceUnperm32_perm, roundBytes_recovered p sk box known]

/-- A product and a round of a subkey with three different words. -/
theorem substitution_lossless_round :
    (gfMult 200 3 333).toNat < 256 ∧
      iceF iceSboxesInit 0x89ABCDEF ⟨#v[0x12345, 0xABCDE, 0x0F1E2]⟩ =
        icePerm32 (roundWord 0x89ABCDEF ⟨#v[0x12345, 0xABCDE, 0x0F1E2]⟩) :=
  ⟨(substitution_lossless.2.1 200 3 333 (by decide) (by decide) (by decide)).2.1,
    (substitution_lossless.2.2 0x89ABCDEF ⟨#v[0x12345, 0xABCDE, 0x0F1E2]⟩ (by decide)).2.1⟩

end Sniffles.IceKey
