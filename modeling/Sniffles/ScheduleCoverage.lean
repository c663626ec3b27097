import Sniffles.IceSchedule

/-!
# What the schedule covers

In the finished schedule the front half holds the subkeys of the first passes
over the key blocks, in order, and the rear half those of the second passes, in
reverse order of the blocks. Each of them has twenty bits in each word, which
keeps the indices of `ice_f` inside the tables.
-/

namespace Sniffles.IceKey

open BitSequences CheckedMemory MachineIntegers

/-- A step of `set` stores a row for each pass over its block. -/
theorem setStep_stores (size : Nat) (key : Nat → Byte) (keysched : Nat → IceSubkey) (i index : Nat)
    (inside : i < size) :
    setStep (16 * size) key keysched i index =
      if index / 8 = 2 * size - 1 - i then
        roundSubkey ((keyBlock key (i * 8)).map turnWord^[120]) (iceKeyrot.drop 8) (index % 8)
      else if index / 8 = i then roundSubkey (keyBlock key (i * 8)) iceKeyrot (index % 8)
      else keysched index := by
  have rear : (16 * size - 8 - i * 8 ≤ index ∧ index < 16 * size - 8 - i * 8 + 8) ↔
      index / 8 = 2 * size - 1 - i := by omega
  have front : (i * 8 ≤ index ∧ index < i * 8 + 8) ↔ index / 8 = i := by omega
  simp only [setStep, scheduleBuild_stores, rear, front]
  by_cases last : index / 8 = 2 * size - 1 - i
  · have round : index - (16 * size - 8 - i * 8) = index % 8 := by omega
    rw [if_pos last, if_pos last, round]
  · rw [if_neg last, if_neg last]
    by_cases first : index / 8 = i
    · have round : index - i * 8 = index % 8 := by omega
      rw [if_pos first, if_pos first, round]
    · rw [if_neg first, if_neg first]

/-- After some blocks both of their rows are in place.

Induct over the blocks: a step leaves the rows of all other blocks. -/
theorem setSteps_rows (size : Nat) (key : Nat → Byte) (keysched : Nat → IceSubkey) (blocks index : Nat)
    (inside : blocks ≤ size) :
    (index / 8 < blocks →
      (List.range blocks).foldl (setStep (16 * size) key) keysched index =
        roundSubkey (keyBlock key (index / 8 * 8)) iceKeyrot (index % 8)) ∧
    (index < 16 * size → 2 * size - 1 - index / 8 < blocks →
      (List.range blocks).foldl (setStep (16 * size) key) keysched index =
        roundSubkey ((keyBlock key ((2 * size - 1 - index / 8) * 8)).map turnWord^[120])
          (iceKeyrot.drop 8) (index % 8)) := by
  induction blocks with
  | zero => exact ⟨fun none => absurd none (Nat.not_lt_zero _),
      fun _ none => absurd none (Nat.not_lt_zero _)⟩
  | succ blocks inductionHypothesis =>
    obtain ⟨front, rear⟩ := inductionHypothesis (by omega)
    rw [List.range_succ, List.foldl_append, List.foldl_cons, List.foldl_nil,
      setStep_stores size key _ blocks index (by omega)]
    constructor
    · intro done
      rw [if_neg (by omega)]
      by_cases own : index / 8 = blocks
      · rw [if_pos own, own]
      · rw [if_neg own]
        exact front (by omega)
    · intro below done
      by_cases own : index / 8 = 2 * size - 1 - blocks
      · have block : 2 * size - 1 - index / 8 = blocks := by omega
        rw [if_pos own, block]
      · rw [if_neg own, if_neg (by omega)]
        exact rear below (by omega)

/-- The subkeys of the first pass over a key block follow those of the blocks before it. -/
theorem set_front (n : Int) (fits : n < 134217728) (memory : Nat → IceSubkey) (key : Nat → Byte) (block round : Nat)
    (inside : block < (create n fits memory).size) (few : round < 8) :
    ((create n fits memory).set key).keysched (8 * block + round) =
      roundSubkey (keyBlock key (block * 8)) iceKeyrot round := by
  by_cases thin : n < 1
  case pos =>
    have created : create n fits memory = ⟨1, 8, memory, rfl⟩ := if_pos thin
    rw [created] at inside ⊢
    obtain rfl : block = 0 := Nat.lt_one_iff.mp inside
    have within : 0 ≤ 8 * 0 + round ∧ 8 * 0 + round < 0 + 8 := by omega
    have same : 8 * 0 + round - 0 = round := by omega
    rw [IceKey.set, if_pos rfl, scheduleBuild_stores]
    dsimp only
    rw [if_pos within, same]
  case neg =>
    have created : create n fits memory = ⟨n.toNat, n.toNat * 16, memory, by omega⟩ := if_neg thin
    rw [created] at inside ⊢
    have several : ¬ n.toNat * 16 = 8 := by omega
    have quotient : (8 * block + round) / 8 = block := by omega
    have remainder : (8 * block + round) % 8 = round := by omega
    have rows := (setSteps_rows n.toNat key memory n.toNat (8 * block + round) (Nat.le_refl _)).1
    rw [quotient, remainder, Nat.mul_comm 16 n.toNat] at rows
    rw [IceKey.set, if_neg several]
    exact rows inside

/-- Every subkey of the schedule is that of some round. -/
theorem set_rounds_stored (n : Int) (fits : n < 134217728) (memory : Nat → IceSubkey) (key : Nat → Byte) (index : Nat)
    (inside : index < (create n fits memory).rounds) :
    ∃ kb keyrot round, ((create n fits memory).set key).keysched index = roundSubkey kb keyrot round := by
  by_cases thin : n < 1
  case pos =>
    have created : create n fits memory = ⟨1, 8, memory, rfl⟩ := if_pos thin
    have rounds : index < 8 := by rwa [created] at inside
    have front := set_front n fits memory key 0 index (by rw [created]; exact Nat.one_pos) rounds
    rw [Nat.mul_zero, Nat.zero_add] at front
    exact ⟨_, _, _, front⟩
  case neg =>
    have created : create n fits memory = ⟨n.toNat, n.toNat * 16, memory, by omega⟩ := if_neg thin
    rw [created] at inside ⊢
    have below : index < n.toNat * 16 := inside
    have several : ¬ n.toNat * 16 = 8 := by omega
    obtain ⟨front, rear⟩ := setSteps_rows n.toNat key memory n.toNat index (Nat.le_refl _)
    rw [Nat.mul_comm 16 n.toNat] at front rear
    rw [IceKey.set, if_neg several]
    by_cases first : index / 8 < n.toNat
    · exact ⟨_, _, _, front first⟩
    · exact ⟨_, _, _, rear (by omega) (by omega)⟩

/-- When sixteen times the level does not fit, `set` leaves the key, if it has not left
    the schedule before: there are more blocks than the wrapped key size says. -/
theorem set_faults {n : Int} {memory : Nat → IceSubkey} {self : KeyObject}
    (made : construct n memory = some self) (large : 134217728 ≤ n) (int : n < 2147483648)
    (key : List Byte) (sized : (key.length : Int) = self.keySize) (schedule : Schedule) :
    self.set key ≠ .ok schedule := by
  obtain ⟨size, rounds, present, _⟩ := construct_fields made
  have thick : ¬ n < 1 := by omega
  rw [if_neg thick] at size rounds
  rw [KeyObject.keySize, size] at sized
  rw [rounds] at present
  simp only [int32] at present sized rounds
  obtain ⟨blocks, length⟩ : ∃ blocks, key.length = 8 * blocks := ⟨key.length / 8, by omega⟩
  have few : (blocks : Int) < n := by omega
  have several : ¬ self.rounds = 8 := by omega
  obtain ⟨rest, all⟩ : ∃ rest, self.size.toNat = blocks + (rest + 1) :=
    ⟨n.toNat - blocks - 1, by omega⟩
  have start : int32 (blocks * 8) = (blocks * 8 : Nat) := by
    rw [int32_of_fits (by omega) (by omega)]
    rfl
  have beyond : ¬ blocks * 8 + 8 ≤ key.length := by omega
  have failed (before : Schedule) : setBlock self key before blocks = .error .outOfBounds := by
    rw [setBlock, start, readKeyBlock, if_pos (Int.natCast_nonneg _), Int.toNat_natCast, readVector,
      dif_neg beyond, error_bind, error_bind]
  rw [KeyObject.set, if_neg several, all, List.range_add, List.foldlM_append, List.range_succ_eq_map,
    List.map_cons, Nat.add_zero]
  cases (List.range blocks).foldlM (setBlock self key) ⟨self.keysched, []⟩ with
  | error fault => exact fun same => by cases same
  | ok before =>
    rw [ok_bind, List.foldlM_cons, failed, error_bind]
    exact fun same => by cases same

/-- `set` returns, so that it has read inside the key and stored inside the schedule only;
    it has stored each subkey once; and all subkeys have twenty bits in each word, so that
    `ice_f` reads inside its tables for every half block. -/
def ScheduleComplete (self : KeyObject) (key : List Byte) : Prop :=
  ∃ schedule, self.set key = .ok schedule ∧
    schedule.keysched.length = self.rounds.toNat ∧
    schedule.written.Perm (List.range self.rounds.toNat) ∧
    ∀ subkey ∈ schedule.keysched, (∀ slot : Fin 3, (subkey.val.get slot).toNat < 2 ^ 20) ∧
      ∀ p, ∀ index ∈ tableIndices p subkey, index < 1024

/-- At every level at which a key can be constructed, and for every key of the size that it
    states, the schedule is complete exactly when sixteen times the level fits. -/
theorem schedule_complete_iff (n : Int) (int : n < 2147483648) (memory : Nat → IceSubkey)
    (self : KeyObject) (made : construct n memory = some self) (key : List Byte)
    (sized : (key.length : Int) = self.keySize) :
    ScheduleComplete self key ↔ n < 134217728 := by
  constructor
  · rintro ⟨schedule, returned, _⟩
    by_contra large
    exact set_faults made (Int.not_lt.mp large) int key sized schedule returned
  · intro fits
    obtain ⟨schedule, returned, rounds, length, once, holds⟩ := set_holds made fits key sized
    refine ⟨schedule, returned, length, once, ?_⟩
    intro subkey member
    obtain ⟨index, inside, stored⟩ := List.getElem_of_mem member
    have here := holds index inside
    rw [List.getElem?_eq_getElem inside, stored] at here
    obtain ⟨kb, keyrot, round, computed⟩ := set_rounds_stored n fits memory (keyByte key) index
      (by rw [← rounds, ← length]; exact inside)
    obtain rfl : subkey = roundSubkey kb keyrot round := (Option.some.inj here).trans computed
    have small := scheduleSubkey_small (kb.map turnWord^[15 * round]) (keyrot.getD round 0)
    exact ⟨small, fun p => tableIndices_inside p _ small⟩

/-- The level that the program uses. -/
theorem level_two_complete :
    ScheduleComplete ⟨2, 32, allocate (fun _ => ⟨#v[0, 0, 0]⟩) 32⟩ (List.replicate 16 0x43) :=
  (schedule_complete_iff 2 (by decide) (fun _ => ⟨#v[0, 0, 0]⟩) _ rfl _ rfl).mpr (by decide)

/-- At level 2^29 + 1 the constructor allocates sixteen subkeys, the stated key size is
    eight bytes, and `set` leaves both. -/
theorem wrapped_level_incomplete :
    construct 536870913 (fun _ => ⟨#v[0, 0, 0]⟩) =
        some ⟨536870913, 16, allocate (fun _ => ⟨#v[0, 0, 0]⟩) 16⟩ ∧
      (KeyObject.mk 536870913 16 (allocate (fun _ => ⟨#v[0, 0, 0]⟩) 16)).keySize = 8 ∧
      ¬ ScheduleComplete ⟨536870913, 16, allocate (fun _ => ⟨#v[0, 0, 0]⟩) 16⟩
        (List.replicate 8 0x43) := by
  have made : construct 536870913 (fun _ => ⟨#v[0, 0, 0]⟩) =
      some ⟨536870913, 16, allocate (fun _ => ⟨#v[0, 0, 0]⟩) 16⟩ := rfl
  refine ⟨made, rfl, ?_⟩
  rintro ⟨schedule, returned, _⟩
  exact set_faults made (by decide) (by decide) (List.replicate 8 0x43) rfl schedule returned

end Sniffles.IceKey
