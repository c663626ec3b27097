import Sniffles.Foundations.CheckedMemory
import Sniffles.Foundations.MachineIntegers
import Sniffles.ScheduleWords

/-!
# Setting a key

The constructor computes the number of rounds as an `int`, sixteen times the
level, and allocates as many subkeys; the key size is an `int` as well. Here
both wrap, the key and the schedule are owned buffers and every access to them
is checked. The indices at which subkeys are stored are recorded.

While sixteen times the level fits, `set` fills the schedule from both ends: the
subkeys of the first pass over a key block follow those of the blocks before it,
those of the second pass precede them. Each subkey is stored once. From level
2^27 on the number of rounds wraps. It may then be a small one for which the
allocation succeeds, and so may the key size; `set` still runs through as many
blocks as the level says and leaves both buffers.
-/

namespace Sniffles.IceKey

open BitSequences CheckedMemory MachineIntegers

/-- A key object: its `int` fields and the schedule it has allocated. -/
structure KeyObject where
  size : Int
  rounds : Int
  keysched : List IceSubkey

/-- `IceKey(n)`. A negative count makes `new` throw; otherwise the subkeys hold whatever
    the allocator left there. -/
def construct (n : Int) (memory : Nat → IceSubkey) : Option KeyObject :=
  let size := if n < 1 then 1 else n
  let rounds := if n < 1 then 8 else int32 (n * 16)
  if rounds < 0 then none else some ⟨size, rounds, allocate memory rounds.toNat⟩

/-- `keySize`. -/
def KeyObject.keySize (self : KeyObject) : Int := int32 (self.size * 8)

/-- The schedule array with the indices that have been stored to, the latest first. -/
structure Schedule where
  keysched : List IceSubkey
  written : List Nat

/-- Store a subkey. -/
def Schedule.store (schedule : Schedule) (index : Int) (subkey : IceSubkey) : Checked Schedule := do
  let keysched ← writeAt schedule.keysched index subkey
  .ok ⟨keysched, index.toNat :: schedule.written⟩

/-- One round of `scheduleBuild` on the allocated schedule. -/
def buildRound (n : Int) (keyrot : List Nat) (state : Vector (BitVec 16) 4 × Schedule) (i : Nat) :
    Checked (Vector (BitVec 16) 4 × Schedule) := do
  let (kb, sk) := scheduleSubkey state.1 (keyrot.getD i 0)
  let schedule ← state.2.store (n + i) ⟨sk⟩
  .ok (kb, schedule)

/-- `scheduleBuild` on the allocated schedule, for a number of rounds. -/
def buildRounds (kb : Vector (BitVec 16) 4) (schedule : Schedule) (n : Int) (keyrot : List Nat)
    (rounds : Nat) : Checked (Vector (BitVec 16) 4 × Schedule) :=
  (List.range rounds).foldlM (buildRound n keyrot) (kb, schedule)

/-- The loop that reads the four words of a key block. -/
def readKeyBlock (key : List Byte) (start : Int) : Checked (Vector (BitVec 16) 4) :=
  if 0 ≤ start then do
    let bytes ← readVector 8 key start.toNat
    .ok (keyBlock (fun index => bytes.toList.getD index 0) 0)
  else .error .outOfBounds

/-- The body of the loop over the key blocks. -/
def setBlock (self : KeyObject) (key : List Byte) (schedule : Schedule) (i : Nat) :
    Checked Schedule := do
  let start := int32 (i * 8)
  let kb ← readKeyBlock key start
  let (kb, schedule) ← buildRounds kb schedule start iceKeyrot 8
  let (_, schedule) ← buildRounds kb schedule (int32 (self.rounds - 8 - start)) (iceKeyrot.drop 8) 8
  .ok schedule

/-- `set`. -/
def KeyObject.set (self : KeyObject) (key : List Byte) : Checked Schedule :=
  if self.rounds = 8 then do
    let kb ← readKeyBlock key 0
    let (_, schedule) ← buildRounds kb ⟨self.keysched, []⟩ 0 iceKeyrot 8
    .ok schedule
  else (List.range self.size.toNat).foldlM (setBlock self key) ⟨self.keysched, []⟩

/-- The salted halves of `ice_f`. -/
def saltedHalves (p : BitVec 32) (sk : IceSubkey) : BitVec 32 × BitVec 32 :=
  let tl := ((p >>> 16) &&& 0x3ff) ||| (((p >>> 14) ||| (p <<< 18)) &&& 0xffc00)
  let tr := (p &&& 0x3ff) ||| ((p <<< 2) &&& 0xffc00)
  let al := sk.val.get 2 &&& (tl ^^^ tr)
  let ar := al ^^^ tr
  let al := al ^^^ tl
  (al ^^^ sk.val.get 0, ar ^^^ sk.val.get 1)

/-- The indices with which `ice_f` reads the four tables. -/
def tableIndices (p : BitVec 32) (sk : IceSubkey) : List Nat :=
  let (al, ar) := saltedHalves p sk
  [(al >>> 10).toNat, (al &&& 0x3ff).toNat, (ar >>> 10).toNat, (ar &&& 0x3ff).toNat]

/-- `ice_f` joins the table entries at these indices. -/
theorem iceF_tables (sbox : SBoxes) (p : BitVec 32) (sk : IceSubkey) :
    iceF sbox p sk = sbox 0 ((tableIndices p sk).getD 0 0) ||| sbox 1 ((tableIndices p sk).getD 1 0) |||
      sbox 2 ((tableIndices p sk).getD 2 0) ||| sbox 3 ((tableIndices p sk).getD 3 0) := rfl

/-- Subkeys of twenty bits give halves of twenty bits. -/
theorem saltedHalves_small (p : BitVec 32) (sk : IceSubkey)
    (small : ∀ slot : Fin 3, (sk.val.get slot).toNat < 2 ^ 20) :
    (saltedHalves p sk).1.toNat < 2 ^ 20 ∧ (saltedHalves p sk).2.toNat < 2 ^ 20 := by
  have masked (word mask : BitVec 32) (few : mask.toNat < 2 ^ 20) : (word &&& mask).toNat < 2 ^ 20 := by
    rw [BitVec.toNat_and]
    exact Nat.lt_of_le_of_lt Nat.and_le_right few
  have expanded (low high : BitVec 32) :
      ((low &&& 0x3ff) ||| (high &&& 0xffc00)).toNat < 2 ^ 20 := by
    rw [BitVec.toNat_or]
    exact Nat.or_lt_two_pow (masked low 0x3ff (by decide)) (masked high 0xffc00 (by decide))
  have salt (word : BitVec 32) : (sk.val.get 2 &&& word).toNat < 2 ^ 20 := by
    rw [BitVec.toNat_and]
    exact Nat.lt_of_le_of_lt Nat.and_le_left (small 2)
  constructor
  · simp only [saltedHalves, BitVec.toNat_xor]
    exact Nat.xor_lt_two_pow (Nat.xor_lt_two_pow (salt _) (expanded _ _)) (small 0)
  · simp only [saltedHalves, BitVec.toNat_xor]
    exact Nat.xor_lt_two_pow (Nat.xor_lt_two_pow (salt _) (expanded _ _)) (small 1)

/-- All four tables are read inside. -/
theorem tableIndices_inside (p : BitVec 32) (sk : IceSubkey)
    (small : ∀ slot : Fin 3, (sk.val.get slot).toNat < 2 ^ 20) :
    ∀ index ∈ tableIndices p sk, index < 1024 := by
  obtain ⟨left, right⟩ := saltedHalves_small p sk small
  have high (word : BitVec 32) (below : word.toNat < 2 ^ 20) : (word >>> 10).toNat < 1024 := by
    rw [BitVec.toNat_ushiftRight, Nat.shiftRight_eq_div_pow]
    omega
  have low (word : BitVec 32) : (word &&& 0x3ff).toNat < 1024 := by
    rw [BitVec.toNat_and]
    exact Nat.lt_of_le_of_lt Nat.and_le_right (by decide)
  intro index member
  simp only [tableIndices, List.mem_cons, List.not_mem_nil, or_false] at member
  rcases member with rfl | rfl | rfl | rfl
  · exact high _ left
  · exact low _
  · exact high _ right
  · exact low _

/-- A round inside the schedule stores its subkey. -/
theorem buildRound_stores (kb : Vector (BitVec 16) 4) (keysched : List IceSubkey)
    (written : List Nat) (n : Nat) (keyrot : List Nat) (i : Nat) (inside : n + i < keysched.length) :
    buildRound n keyrot (kb, ⟨keysched, written⟩) i =
      .ok ((scheduleSubkey kb (keyrot.getD i 0)).1,
        ⟨keysched.set (n + i) ⟨(scheduleSubkey kb (keyrot.getD i 0)).2⟩, (n + i) :: written⟩) := by
  have place : (n : Int) + i = (n + i : Nat) := rfl
  rw [buildRound]
  simp only [Schedule.store, place, writeAt_inside _ _ _ inside, ok_bind, Int.toNat_natCast]

/-- Consecutive rounds store their subkeys in a row, inside the schedule.

Induct over the rounds: each stores behind those before it. -/
theorem buildRounds_stores (kb : Vector (BitVec 16) 4) (keysched : List IceSubkey)
    (written : List Nat) (n : Nat) (keyrot : List Nat) (rounds : Nat)
    (inside : n + rounds ≤ keysched.length) :
    ∃ stored : List IceSubkey, buildRounds kb ⟨keysched, written⟩ n keyrot rounds =
        .ok (kb.map turnWord^[15 * rounds], ⟨stored, (List.range' n rounds).reverse ++ written⟩) ∧
      stored.length = keysched.length ∧ ∀ index, stored[index]? =
        if n ≤ index ∧ index < n + rounds then some (roundSubkey kb keyrot (index - n))
        else keysched[index]? := by
  induction rounds with
  | zero =>
    refine ⟨keysched, ?_, rfl, ?_⟩
    · rw [Nat.mul_zero, Function.iterate_zero, Vector.map_id]
      rfl
    · intro index
      have outside : ¬ (n ≤ index ∧ index < n + 0) := by omega
      exact (if_neg outside).symm
  | succ rounds inductionHypothesis =>
    obtain ⟨stored, built, length, cells⟩ := inductionHypothesis (by omega)
    have turned := (scheduleSubkey_words (kb.map turnWord^[15 * rounds]) (keyrot.getD rounds 0)).1
    have together : (kb.map turnWord^[15 * rounds]).map turnWord^[15] =
        kb.map turnWord^[15 * (rounds + 1)] := by
      rw [Vector.map_map, ← Function.iterate_add, Nat.mul_succ, Nat.add_comm]
    have room : n + rounds < stored.length := by omega
    have listed : (List.range' n (rounds + 1)).reverse ++ written =
        (n + rounds) :: ((List.range' n rounds).reverse ++ written) := by
      rw [List.range'_concat, List.reverse_append, Nat.one_mul]
      rfl
    refine ⟨stored.set (n + rounds) (roundSubkey kb keyrot rounds), ?_, ?_, ?_⟩
    · rw [buildRounds] at built ⊢
      rw [List.range_succ, List.foldlM_append, built, ok_bind, List.foldlM_cons,
        buildRound_stores _ _ _ _ _ _ room, turned, together, listed]
      rfl
    · rw [List.length_set, length]
    · intro index
      rw [List.getElem?_set, cells]
      by_cases last : n + rounds = index
      · have within : n ≤ index ∧ index < n + (rounds + 1) := by omega
        have round : index - n = rounds := by omega
        rw [if_pos last, if_pos (by omega), if_pos within, round]
      · rw [if_neg last]
        by_cases earlier : n ≤ index ∧ index < n + rounds
        · have within : n ≤ index ∧ index < n + (rounds + 1) := by omega
          rw [if_pos earlier, if_pos within]
        · have outside : ¬ (n ≤ index ∧ index < n + (rounds + 1)) := by omega
          rw [if_neg earlier, if_neg outside]

/-- The bytes of a key, which is not read behind its end. -/
def keyByte (key : List Byte) (index : Nat) : Byte := key.getD index 0

/-- A key block inside the key is read. -/
theorem readKeyBlock_inside (key : List Byte) (start : Nat) (inside : start + 8 ≤ key.length) :
    readKeyBlock key start = .ok (keyBlock (keyByte key) start) := by
  have bytes (index : Nat) (few : index < 8) :
      ((key.drop start).take 8).getD index 0 = keyByte key (start + index) := by
    rw [keyByte, List.getD_eq_getElem?_getD, List.getElem?_take_of_lt few, List.getElem?_drop,
      List.getD_eq_getElem?_getD]
  have same : keyBlock (fun index => ((key.drop start).take 8).getD index 0) 0 =
      keyBlock (keyByte key) start := by
    simp only [keyBlock]
    congr 1
    funext word
    have small := word.isLt
    rw [bytes _ (by omega), bytes _ (by omega)]
    simp only [Nat.zero_add, Nat.add_assoc]
  rw [readKeyBlock, if_pos (Int.natCast_nonneg _), Int.toNat_natCast, readVector, dif_pos inside,
    ok_bind, ← same]
  rfl

/-- The allocated schedule holds the subkeys of a schedule given by its indices. -/
def Holds (stored : List IceSubkey) (keysched : Nat → IceSubkey) : Prop :=
  ∀ index < stored.length, stored[index]? = some (keysched index)

/-- Building on the allocated schedule stores what `scheduleBuild` does. -/
theorem buildRounds_holds (kb : Vector (BitVec 16) 4) (stored : List IceSubkey)
    (keysched : Nat → IceSubkey) (written : List Nat) (n : Nat) (keyrot : List Nat)
    (holds : Holds stored keysched) (inside : n + 8 ≤ stored.length) :
    ∃ next, buildRounds kb ⟨stored, written⟩ n keyrot 8 =
        .ok ((scheduleBuild kb keysched n keyrot).1,
          ⟨next, (List.range' n 8).reverse ++ written⟩) ∧
      next.length = stored.length ∧ Holds next (scheduleBuild kb keysched n keyrot).2 := by
  obtain ⟨next, built, length, cells⟩ := buildRounds_stores kb stored written n keyrot 8 inside
  rw [scheduleBuild_stores]
  refine ⟨next, built, length, ?_⟩
  intro index below
  rw [cells]
  dsimp only
  by_cases within : n ≤ index ∧ index < n + 8
  · rw [if_pos within, if_pos within]
  · rw [if_neg within, if_neg within]
    exact holds index (by omega)

/-- The body of the loop of `set` on a schedule given by its indices. -/
def setStep (rounds : Nat) (key : Nat → Byte) (keysched : Nat → IceSubkey) (i : Nat) :
    Nat → IceSubkey :=
  let (kb, keysched) := scheduleBuild (keyBlock key (i * 8)) keysched (i * 8) iceKeyrot
  (scheduleBuild kb keysched (rounds - 8 - i * 8) (iceKeyrot.drop 8)).2

/-- A key block inside the key stores two rows of subkeys inside the schedule. -/
theorem setBlock_holds (self : KeyObject) (key : List Byte) (size i : Nat)
    (rounds : self.rounds = (16 * size : Nat)) (fits : 16 * size < 2147483648)
    (sized : key.length = 8 * size) (inside : i < size) (stored : List IceSubkey)
    (keysched : Nat → IceSubkey) (written : List Nat) (holds : Holds stored keysched)
    (length : stored.length = 16 * size) :
    ∃ next, setBlock self key ⟨stored, written⟩ i =
        .ok ⟨next, (List.range' (16 * size - 8 - i * 8) 8).reverse ++
          ((List.range' (i * 8) 8).reverse ++ written)⟩ ∧
      next.length = 16 * size ∧ Holds next (setStep (16 * size) (keyByte key) keysched i) := by
  have start : int32 (i * 8) = (i * 8 : Nat) := by
    rw [int32_of_fits (by omega) (by omega)]
    rfl
  have back : int32 (self.rounds - 8 - (i * 8 : Nat)) = (16 * size - 8 - i * 8 : Nat) := by
    rw [rounds, int32_of_fits (by omega) (by omega)]
    omega
  obtain ⟨first, builtFirst, lengthFirst, holdsFirst⟩ :=
    buildRounds_holds (keyBlock (keyByte key) (i * 8)) stored keysched written (i * 8) iceKeyrot holds
      (by omega)
  obtain ⟨next, builtNext, lengthNext, holdsNext⟩ :=
    buildRounds_holds (scheduleBuild (keyBlock (keyByte key) (i * 8)) keysched (i * 8) iceKeyrot).1
      first _ ((List.range' (i * 8) 8).reverse ++ written) (16 * size - 8 - i * 8)
      (iceKeyrot.drop 8) holdsFirst (by omega)
  refine ⟨next, ?_, by omega, holdsNext⟩
  rw [setBlock, start, readKeyBlock_inside key (i * 8) (by omega), ok_bind]
  dsimp only
  rw [builtFirst, ok_bind]
  dsimp only
  rw [back, builtNext, ok_bind]

/-- The rows of some key blocks, from both ends of the schedule. -/
def blockRows (size blocks : Nat) : List Nat :=
  List.range' 0 (8 * blocks) ++ List.range' (16 * size - 8 * blocks) (8 * blocks)

/-- The next block adds a row behind the front part and one before the rear part. -/
theorem blockRows_next (size blocks : Nat) (inside : blocks < size) (written : List Nat)
    (rows : written.Perm (blockRows size blocks)) :
    ((List.range' (16 * size - 8 - blocks * 8) 8).reverse ++
      ((List.range' (blocks * 8) 8).reverse ++ written)).Perm (blockRows size (blocks + 1)) := by
  have front : List.range' 0 (8 * (blocks + 1)) =
      List.range' 0 (8 * blocks) ++ List.range' (blocks * 8) 8 := by
    have split := @List.range'_append_1 0 (8 * blocks) 8
    rw [Nat.zero_add, Nat.mul_comm 8 blocks] at split
    rw [Nat.mul_succ, Nat.mul_comm 8 blocks, ← split]
  have rear : List.range' (16 * size - 8 * (blocks + 1)) (8 * (blocks + 1)) =
      List.range' (16 * size - 8 - blocks * 8) 8 ++
        List.range' (16 * size - 8 * blocks) (8 * blocks) := by
    have start : 16 * size - 8 * (blocks + 1) = 16 * size - 8 - blocks * 8 := by omega
    have behind : 16 * size - 8 * blocks = 16 * size - 8 - blocks * 8 + 8 := by omega
    have total : 8 * (blocks + 1) = 8 + 8 * blocks := by omega
    rw [start, behind, total, List.range'_append_1]
  rw [blockRows, front, rear]
  refine ((List.reverse_perm _).append ((List.reverse_perm _).append rows)).trans ?_
  rw [blockRows, ← List.append_assoc, ← List.append_assoc, List.append_assoc _ _ (List.range' 0 _),
    ← List.append_assoc _ (List.range' (16 * size - 8 - blocks * 8) 8)]
  exact (List.perm_append_comm.trans (List.perm_append_comm.append_right _)).append_right _

/-- The loop over the first key blocks stores their rows.

Induct over the blocks: the rows of the next one lie between those stored before. -/
theorem setBlocks_holds (self : KeyObject) (key : List Byte) (size : Nat)
    (rounds : self.rounds = (16 * size : Nat)) (fits : 16 * size < 2147483648)
    (sized : key.length = 8 * size) (keysched : Nat → IceSubkey)
    (holds : Holds self.keysched keysched) (length : self.keysched.length = 16 * size)
    (blocks : Nat) (inside : blocks ≤ size) :
    ∃ stored written, (List.range blocks).foldlM (setBlock self key) ⟨self.keysched, []⟩ =
        .ok ⟨stored, written⟩ ∧
      stored.length = 16 * size ∧ written.Perm (blockRows size blocks) ∧
      Holds stored ((List.range blocks).foldl (setStep (16 * size) (keyByte key)) keysched) := by
  induction blocks with
  | zero => exact ⟨self.keysched, [], rfl, length, List.Perm.refl [], holds⟩
  | succ blocks inductionHypothesis =>
    obtain ⟨stored, written, looped, lengthNow, rows, holdsNow⟩ := inductionHypothesis (by omega)
    obtain ⟨next, stepped, lengthNext, holdsNext⟩ := setBlock_holds self key size blocks rounds fits
      sized (by omega) stored _ written holdsNow lengthNow
    refine ⟨next, _, ?_, lengthNext, blockRows_next size blocks (by omega) written rows, ?_⟩
    · rw [List.range_succ, List.foldlM_append, looped, ok_bind, List.foldlM_cons, stepped]
      rfl
    · rw [List.range_succ, List.foldl_append]
      exact holdsNext

/-- A constructed key has eight rounds below level one, and otherwise sixteen times the
    level, as far as that fits. -/
theorem construct_fields {n : Int} {memory : Nat → IceSubkey} {self : KeyObject}
    (made : construct n memory = some self) :
    self.size = (if n < 1 then 1 else n) ∧
      self.rounds = (if n < 1 then 8 else int32 (n * 16)) ∧ 0 ≤ self.rounds ∧
      self.keysched = allocate memory self.rounds.toNat := by
  unfold construct at made
  dsimp only at made
  by_cases negative : (if n < 1 then 8 else int32 (n * 16)) < 0
  · rw [if_pos negative] at made
    cases made
  · rw [if_neg negative] at made
    cases made
    exact ⟨rfl, rfl, Int.not_lt.mp negative, rfl⟩

/-- Fresh memory holds what the allocator left there. -/
theorem allocate_holds (memory : Nat → IceSubkey) (count : Nat) :
    Holds (allocate memory count) memory := by
  intro index below
  rw [allocate_length] at below
  rw [allocate, List.getElem?_map, List.getElem?_range below]
  rfl

/-- While sixteen times the level fits, `set` stores every subkey of the schedule once, and
    the schedule is the one that `IceKey.set` describes. -/
theorem set_holds {n : Int} {memory : Nat → IceSubkey} {self : KeyObject}
    (made : construct n memory = some self) (fits : n < 134217728) (key : List Byte)
    (sized : (key.length : Int) = self.keySize) :
    ∃ schedule, self.set key = .ok schedule ∧
      self.rounds.toNat = (create n fits memory).rounds ∧
      schedule.keysched.length = self.rounds.toNat ∧
      schedule.written.Perm (List.range self.rounds.toNat) ∧
      Holds schedule.keysched ((create n fits memory).set (keyByte key)).keysched := by
  obtain ⟨size, rounds, _, allocated⟩ := construct_fields made
  have memoryHolds := allocate_holds memory self.rounds.toNat
  rw [← allocated] at memoryHolds
  have lengthAll : self.keysched.length = self.rounds.toNat := by rw [allocated, allocate_length]
  rw [KeyObject.keySize] at sized
  by_cases thin : n < 1
  case pos =>
    rw [if_pos thin] at size rounds
    rw [size] at sized
    have eight : key.length = 8 := Int.ofNat.inj sized
    have many : self.rounds.toNat = 8 := by rw [rounds]; rfl
    obtain ⟨stored, built, length, holds⟩ := buildRounds_holds (keyBlock (keyByte key) 0)
      self.keysched memory [] 0 iceKeyrot memoryHolds (by omega)
    have start : ((0 : Nat) : Int) = 0 := rfl
    have created : create n fits memory = ⟨1, 8, memory, rfl⟩ := if_pos thin
    have read := readKeyBlock_inside key 0 (by omega)
    rw [start] at built read
    refine ⟨⟨stored, (List.range' 0 8).reverse ++ []⟩, ?_, ?_, ?_, ?_, ?_⟩
    · rw [KeyObject.set, if_pos rounds, read, ok_bind, built, ok_bind]
    · rw [created, many]
    · exact length.trans lengthAll
    · rw [many, List.append_nil, List.range_eq_range']
      exact List.reverse_perm _
    · rw [created]
      exact holds
  case neg =>
    rw [if_neg thin] at size rounds
    obtain ⟨level, rfl⟩ := Int.eq_ofNat_of_zero_le (by omega : 0 ≤ n)
    rw [int32_of_fits (by omega) (by omega)] at rounds
    rw [size, int32_of_fits (by omega) (by omega)] at sized
    have whole : self.rounds = (16 * level : Nat) := by omega
    have many : self.rounds.toNat = 16 * level := by omega
    have created : create (level : Int) fits memory = ⟨level, 16 * level, memory, by omega⟩ := by
      rw [create, if_neg thin]
      congr 1
      · omega
    obtain ⟨stored, written, looped, length, rows, holds⟩ := setBlocks_holds self key level whole
      (by omega) (by omega) memory memoryHolds (lengthAll.trans many) level (Nat.le_refl level)
    have several : ¬ self.rounds = 8 := by omega
    have all : blockRows level level = List.range (16 * level) := by
      have half : 16 * level - 8 * level = 0 + 8 * level := by omega
      have twice : 16 * level = 8 * level + 8 * level := by omega
      rw [blockRows, half, List.range'_append_1, ← twice, List.range_eq_range']
    refine ⟨⟨stored, written⟩, ?_, ?_, ?_, ?_, ?_⟩
    · rw [KeyObject.set, if_neg several, size]
      exact looped
    · rw [created, many]
    · exact length.trans many.symm
    · rw [many, ← all]
      exact rows
    · rw [created, IceKey.set]
      rw [if_neg (by omega : ¬ 16 * level = 8)]
      exact holds

end Sniffles.IceKey
