import Sniffles.ScheduleCoverage

/-!
# The schedule determines the key

Of each key block the first round moves the fifteen lowest bits of all four
words into its subkey. What is left of a word is its highest bit, which is then
the lowest one, so it is among the first bits that the second round moves. The
subkeys of these two rounds lie at the start of the block's row in the front
half of the schedule, and no later block stores there.
-/

namespace Sniffles.IceKey

open BitSequences CheckedMemory MachineIntegers

/-- The bytes of a word are found again in it. -/
theorem wordBytes_determined (high low otherHigh otherLow : Byte)
    (same : (high.setWidth 16 <<< 8) ||| low.setWidth 16 =
      (otherHigh.setWidth 16 <<< 8) ||| otherLow.setWidth 16) :
    high = otherHigh ∧ low = otherLow := by
  have bits (index : Nat) := congrArg (BitVec.getLsbD · index) same
  simp only [BitVec.getLsbD_or, BitVec.getLsbD_shiftLeft, BitVec.getLsbD_setWidth] at bits
  constructor
  · apply BitVec.eq_of_getLsbD_eq
    intro index inside
    have upper := bits (index + 8)
    have width : index < 16 := by omega
    have shifted : index + 8 < 16 := by omega
    simpa [inside, width, shifted] using upper
  · apply BitVec.eq_of_getLsbD_eq
    intro index inside
    have lower := bits index
    have width : index < 16 := by omega
    simpa [inside, width] using lower

/-- The words of a key block determine its eight bytes. -/
theorem keyBlock_determines (first second : Nat → Byte) (start : Nat)
    (same : keyBlock first start = keyBlock second start) (offset : Nat) (inside : offset < 8) :
    first (start + offset) = second (start + offset) := by
  have word (j : Nat) (few : j < 4) :
      first (start + j * 2) = second (start + j * 2) ∧
        first (start + j * 2 + 1) = second (start + j * 2 + 1) := by
    have place : 3 - (3 - j) = j := by omega
    have stored := congrArg (fun kb : Vector (BitVec 16) 4 => kb[(⟨3 - j, by omega⟩ : Fin 4)]) same
    simp only [keyBlock, Fin.getElem_fin, Vector.getElem_ofFn, place] at stored
    exact wordBytes_determined _ _ _ _ stored
  obtain ⟨even, odd⟩ := word (offset / 2) (by omega)
  rcases Nat.mod_two_eq_zero_or_one offset with parity | parity
  · have place : start + offset / 2 * 2 = start + offset := by omega
    rwa [place] at even
  · have place : start + offset / 2 * 2 + 1 = start + offset := by omega
    rwa [place] at odd

/-- The first two subkeys of a block determine its words. -/
theorem rounds_determine (first second : Vector (BitVec 16) 4) (keyrot : List Nat)
    (zeroth : roundSubkey first keyrot 0 = roundSubkey second keyrot 0)
    (next : roundSubkey first keyrot 1 = roundSubkey second keyrot 1) : first = second := by
  have start (kb : Vector (BitVec 16) 4) : kb.map turnWord^[15 * 0] = kb := Vector.map_id kb
  have same := congrArg IceSubkey.val zeroth
  simp only [roundSubkey, start] at same
  exact subkeys_determine first second _ _ same (congrArg IceSubkey.val next)

/-- The level of a constructed key is at least one, and its schedule has at least eight
    subkeys for each block of its key. -/
theorem create_blocks (n : Int) (fits : n < 134217728) (memory : Nat → IceSubkey) :
    8 * (create n fits memory).size ≤ (create n fits memory).rounds ∧
      ((create n fits memory).size : Int) = if n < 1 then 1 else n := by
  by_cases thin : n < 1
  · have created : create n fits memory = ⟨1, 8, memory, rfl⟩ := if_pos thin
    rw [created, if_pos thin]
    exact ⟨Nat.le_refl 8, rfl⟩
  · have created : create n fits memory = ⟨n.toNat, n.toNat * 16, memory, by omega⟩ := if_neg thin
    rw [created, if_neg thin]
    dsimp only
    omega

/-- Keys with the same schedule are the same. -/
theorem set_determines {n : Int} {memory : Nat → IceSubkey} {self : KeyObject}
    (made : construct n memory = some self) (fits : n < 134217728) (first second : List Byte)
    (sized : (first.length : Int) = self.keySize) (sizedSecond : (second.length : Int) = self.keySize)
    (one two : Schedule) (returned : self.set first = .ok one) (returnedSecond : self.set second = .ok two)
    (same : one.keysched = two.keysched) : first = second := by
  obtain ⟨schedule, set, rounds, length, _, holds⟩ := set_holds made fits first sized
  obtain ⟨other, setOther, _, _, _, holdsOther⟩ := set_holds made fits second sizedSecond
  cases returned.symm.trans set
  cases returnedSecond.symm.trans setOther
  obtain ⟨many, level⟩ := create_blocks n fits memory
  have subkeys (index : Nat) (inside : index < (create n fits memory).rounds) :
      ((create n fits memory).set (keyByte first)).keysched index =
        ((create n fits memory).set (keyByte second)).keysched index := by
    have below : index < one.keysched.length := by omega
    have left := holds index below
    have right := holdsOther index (same ▸ below)
    rw [same, right] at left
    exact (Option.some.inj left).symm
  have bytes (block : Nat) (inside : block < (create n fits memory).size) (offset : Nat) (few : offset < 8) :
      keyByte first (block * 8 + offset) = keyByte second (block * 8 + offset) := by
    refine keyBlock_determines _ _ (block * 8) ?_ offset few
    have zeroth := subkeys (8 * block + 0) (by omega)
    have next := subkeys (8 * block + 1) (by omega)
    rw [set_front n fits memory _ block 0 inside (by decide),
      set_front n fits memory _ block 0 inside (by decide)] at zeroth
    rw [set_front n fits memory _ block 1 inside (by decide),
      set_front n fits memory _ block 1 inside (by decide)] at next
    exact rounds_determine _ _ _ zeroth next
  have keySize : self.keySize = 8 * (create n fits memory).size := by
    obtain ⟨size, _⟩ := construct_fields made
    rw [KeyObject.keySize, size, level]
    split_ifs <;> rw [int32_of_fits (by omega) (by omega), Int.mul_comm]
  apply List.ext_getElem (by omega)
  intro index inside insideSecond
  have place : index / 8 * 8 + index % 8 = index := by omega
  have byte := bytes (index / 8) (by omega) (index % 8) (Nat.mod_lt _ (by decide))
  rw [place] at byte
  simpa [keyByte, List.getD_eq_getElem?_getD, inside, insideSecond] using byte

/-- At every level at which a key can be constructed, two different keys of the size that it
    states give different schedules exactly when sixteen times the level fits. -/
theorem schedules_differ_iff (n : Int) (int : n < 2147483648) (memory : Nat → IceSubkey)
    (self : KeyObject) (made : construct n memory = some self) (first second : List Byte)
    (sized : (first.length : Int) = self.keySize) (sizedSecond : (second.length : Int) = self.keySize)
    (different : first ≠ second) :
    (∃ one two, self.set first = .ok one ∧ self.set second = .ok two ∧
      one.keysched ≠ two.keysched) ↔ n < 134217728 := by
  constructor
  · rintro ⟨one, _, returned, _⟩
    by_contra large
    exact set_faults made (Int.not_lt.mp large) int first sized one returned
  · intro fits
    obtain ⟨one, returned, _⟩ := set_holds made fits first sized
    obtain ⟨two, returnedSecond, _⟩ := set_holds made fits second sizedSecond
    refine ⟨one, two, returned, returnedSecond, fun same => different ?_⟩
    exact set_determines made fits first second sized sizedSecond one two returned returnedSecond same

/-- Two keys of the program's level that differ in one bit. -/
theorem level_two_differ :
    ∃ one two,
      (KeyObject.mk 2 32 (allocate (fun _ => ⟨#v[0, 0, 0]⟩) 32)).set (List.replicate 16 0x43) = .ok one ∧
      (KeyObject.mk 2 32 (allocate (fun _ => ⟨#v[0, 0, 0]⟩) 32)).set
        (List.replicate 15 0x43 ++ [0x42]) = .ok two ∧ one.keysched ≠ two.keysched :=
  (schedules_differ_iff 2 (by decide) (fun _ => ⟨#v[0, 0, 0]⟩) _ rfl (List.replicate 16 0x43)
    (List.replicate 15 0x43 ++ [0x42]) rfl rfl (by decide)).mpr (by decide)

/-- At level 2^29 + 1 neither of two keys of the stated eight bytes gives a schedule. -/
theorem wrapped_level_undefined :
    construct 536870913 (fun _ => ⟨#v[0, 0, 0]⟩) =
        some ⟨536870913, 16, allocate (fun _ => ⟨#v[0, 0, 0]⟩) 16⟩ ∧
      ¬ ∃ one two,
        (KeyObject.mk 536870913 16 (allocate (fun _ => ⟨#v[0, 0, 0]⟩) 16)).set
          (List.replicate 8 0x43) = .ok one ∧
        (KeyObject.mk 536870913 16 (allocate (fun _ => ⟨#v[0, 0, 0]⟩) 16)).set
          (List.replicate 8 0x42) = .ok two ∧ one.keysched ≠ two.keysched := by
  have made : construct 536870913 (fun _ => ⟨#v[0, 0, 0]⟩) =
      some ⟨536870913, 16, allocate (fun _ => ⟨#v[0, 0, 0]⟩) 16⟩ := rfl
  refine ⟨made, ?_⟩
  rintro ⟨one, _, returned, _⟩
  exact set_faults made (by decide) (by decide) (List.replicate 8 0x43) rfl one returned

end Sniffles.IceKey
