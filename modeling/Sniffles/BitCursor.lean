import Sniffles.BitRead

/-!
# The reader refines a cursor into a bit list

The abstract reader keeps one position into the bit list of the buffer. `At`
relates it to the concrete state: the pointer to the next word, the bits still
available and the position balance, and the word holds exactly the bits between
the position and the pointer. Past the last word the same position is kept by a
fake word, which only the clamp in `GetNumBitsRead` makes invisible.

Each read and each seek is shown to keep this relation once; the runs over any
sequence of operations then follow by induction.
-/

namespace Sniffles.CBitRead

open BitSequences MachineIntegers

/-- The members that no read or seek changes, for a buffer opened with the
    default bit count. -/
structure Opened (bytes : Nat) (r : CBitRead) : Prop where
  data : r.data = true
  dataBytes : r.dataBytes = bytes
  dataBits : r.dataBits = 8 * bytes
  bufferEnd : r.bufferEnd = bytes

/-- The word holds the bits from the position up to the next-word pointer. It is
    empty only after a seek to the end of a buffer shorter than a word. -/
structure Loaded (memory : Int → Byte) (bytes : Nat) (r : CBitRead) (position : Nat) : Prop where
  lower : 0 ≤ r.bitsAvail
  upper : r.bitsAvail ≤ 32
  drained : r.bitsAvail = 0 → position = 8 * bytes ∧ bytes < 4
  aligned : r.dataIn % 4 = (bytes : Int) % 4
  inside : r.dataIn ≤ bytes
  balance : 8 * r.dataIn = position + r.bitsAvail
  word : ∀ index : Nat, r.inBufWord.getLsbD index =
    (decide ((index : Int) < r.bitsAvail) && memoryBit memory (position + index))

/-- All bits are consumed and the fake one-bit word stands in the buffer. -/
structure Spent (bytes : Nat) (r : CBitRead) (position : Nat) : Prop where
  finished : position = 8 * bytes
  pointer : r.dataIn = bytes + 4
  fake : r.bitsAvail = 1
  zero : r.inBufWord = 0

/-- A reader that stands at a position of the bit list, with the overflow flag
    raised or clear. -/
structure At (memory : Int → Byte) (bytes : Nat) (raised : Bool) (r : CBitRead)
    (position : Nat) : Prop where
  opened : Opened bytes r
  flag : r.overflow = raised
  place : Loaded memory bytes r position ∨ Spent bytes r position

/-- The members that a read changes are not among them. -/
theorem Opened.moved {bytes : Nat} {r : CBitRead} (opened : Opened bytes r) (word : BitVec 32)
    (avail pointer : Int) (flag : Bool) :
    Opened bytes { r with
      inBufWord := word, bitsAvail := avail, dataIn := pointer, overflow := flag } :=
  ⟨opened.data, opened.dataBytes, opened.dataBits, opened.bufferEnd⟩

/-- A standing reader has not passed the last bit. -/
theorem At.bound {memory : Int → Byte} {bytes : Nat} {raised : Bool} {r : CBitRead}
    {position : Nat} (standing : At memory bytes raised r position) : position ≤ 8 * bytes := by
  rcases standing.place with loaded | spent
  · have := loaded.inside
    have := loaded.balance
    have := loaded.lower
    omega
  · exact Nat.le_of_eq spent.finished

/-- Below the last bit the real word is loaded and holds at least one bit. -/
theorem At.loaded {memory : Int → Byte} {bytes : Nat} {raised : Bool} {r : CBitRead}
    {position : Nat} (standing : At memory bytes raised r position) (before : position < 8 * bytes) :
    Loaded memory bytes r position ∧ 1 ≤ r.bitsAvail := by
  rcases standing.place with loaded | spent
  · refine ⟨loaded, ?_⟩
    have positive : r.bitsAvail ≠ 0 := fun empty => by
      have := loaded.drained empty
      omega
    have := loaded.lower
    omega
  · exact absurd spent.finished (by omega)

/-- The low bits of a mask are set. -/
theorem maskTable_bit (n index : Nat) (width : n ≤ 32) :
    (maskTable n).getLsbD index = decide (index < n) := by
  simp only [maskTable, BitVec.getLsbD_ofNat, Nat.testBit_two_pow_sub_one]
  by_cases inside : index < n
  · have stored : index < 32 := Nat.lt_of_lt_of_le inside width
    simp [inside, stored]
  · simp [inside]

/-- Before the end the complete next word is loaded. -/
theorem grabNextDWord_inside (memory : Int → Byte) (r : CBitRead) (immediately : Bool)
    (before : r.dataIn < r.bufferEnd) :
    r.grabNextDWord memory immediately =
      { r with inBufWord := loadWord memory r.dataIn, dataIn := r.dataIn + 4 } := by
  have notEnd : r.dataIn ≠ r.bufferEnd := by omega
  have notPast : ¬ r.dataIn > r.bufferEnd := by omega
  simp only [grabNextDWord, notEnd, notPast, if_false]

/-- Exactly at the end the fake word is installed. -/
theorem grabNextDWord_end (memory : Int → Byte) (r : CBitRead) (immediately : Bool)
    (finished : r.dataIn = r.bufferEnd) :
    r.grabNextDWord memory immediately =
      { r with
        bitsAvail := 1
        inBufWord := 0
        dataIn := r.dataIn + 4
        overflow := r.overflow || immediately } := by
  simp only [grabNextDWord, finished, if_true]

/-- Beyond the end only the flag and the cleared word change. -/
theorem grabNextDWord_past (memory : Int → Byte) (r : CBitRead) (immediately : Bool)
    (past : r.bufferEnd < r.dataIn) :
    r.grabNextDWord memory immediately = { r with overflow := true, inBufWord := 0 } := by
  have notEnd : r.dataIn ≠ r.bufferEnd := by omega
  simp only [grabNextDWord, notEnd, if_false, gt_iff_lt, past, if_true]

/-- A word loaded at a byte address holds the memory bits from that address and
    nothing above its 32 bits. -/
theorem loaded_word_bits (memory : Int → Byte) (address : Int) (position index : Nat)
    (boundary : 8 * address = position) :
    (loadWord memory address).getLsbD index =
      (decide ((index : Int) < 32) && memoryBit memory (position + index)) := by
  have positive : 0 ≤ address := by omega
  obtain ⟨offset, located⟩ := Int.eq_ofNat_of_zero_le positive
  have same : 8 * offset = position := by omega
  by_cases low : index < 32
  · rw [located, loadWord_bit memory offset index low, same]
    have stored : (index : Int) < 32 := Int.ofNat_lt.mpr low
    simp [stored]
  · have above : ¬ (index : Int) < 32 := by omega
    simp [above, BitVec.getLsbD_of_ge _ _ (Nat.le_of_not_lt low)]

/-- Loading the next word at a word boundary of the buffer establishes the
    relation at that boundary. The remainder of the buffer length at the head
    makes the boundary either the exact end or the start of a complete word. -/
theorem grab_at (memory : Int → Byte) (bytes : Nat) (raised : Bool) (r : CBitRead)
    (position : Nat) (opened : Opened bytes r) (flag : r.overflow = raised) (full : r.bitsAvail = 32)
    (aligned : r.dataIn % 4 = (bytes : Int) % 4) (inside : r.dataIn ≤ bytes)
    (boundary : 8 * r.dataIn = position) :
    At memory bytes raised (r.grabNextDWord memory false) position := by
  by_cases finished : r.dataIn = bytes
  · rw [grabNextDWord_end memory r false (finished.trans opened.bufferEnd.symm)]
    refine ⟨opened.moved .., ?_, .inr ?_⟩
    · simp [flag]
    · exact ⟨by omega, by simp [finished], rfl, rfl⟩
  · have before : r.dataIn < r.bufferEnd := by
      have := opened.bufferEnd
      omega
    rw [grabNextDWord_inside memory r false before]
    refine ⟨opened.moved .., flag, .inl ?_⟩
    constructor <;> simp only [full]
    case word => exact fun index => loaded_word_bits memory r.dataIn position index boundary
    all_goals omega

/-- Refilling an empty word keeps the position. -/
theorem fetchNext_at (memory : Int → Byte) (bytes : Nat) (raised : Bool) (r : CBitRead)
    (position : Nat) (opened : Opened bytes r) (flag : r.overflow = raised)
    (aligned : r.dataIn % 4 = (bytes : Int) % 4) (inside : r.dataIn ≤ bytes)
    (boundary : 8 * r.dataIn = position) :
    At memory bytes raised (r.fetchNext memory) position :=
  grab_at memory bytes raised { r with bitsAvail := 32 } position
    (opened.moved ..) flag rfl
    aligned inside boundary

/-- Dropping bits that the word still holds advances the position by as many. -/
theorem advance_at (memory : Int → Byte) (bytes : Nat) (raised : Bool) (r : CBitRead)
    (position count : Nat) (opened : Opened bytes r) (flag : r.overflow = raised)
    (loaded : Loaded memory bytes r position) (rest : (count : Int) < r.bitsAvail) :
    At memory bytes raised { r with
      bitsAvail := r.bitsAvail - count
      inBufWord := r.inBufWord >>> count } (position + count) := by
  obtain ⟨lower, upper, drained, aligned, inside, balance, word⟩ := loaded
  refine ⟨opened.moved .., flag, .inl ?_⟩
  constructor
  case word =>
    intro index
    simp only [BitVec.getLsbD_ushiftRight, word, Nat.add_assoc]
    congr 1
    exact decide_eq_decide.mpr (by omega)
  all_goals first | assumption | (simp only; omega)

/-- A read of fewer bits than the word holds shifts them out. -/
theorem readUBitLong_held (memory : Int → Byte) (r : CBitRead) (count : Nat)
    (more : (count : Int) < r.bitsAvail) :
    r.readUBitLong memory count = (r.inBufWord &&& maskTable count,
      { r with bitsAvail := r.bitsAvail - count, inBufWord := r.inBufWord >>> count }) := by
  have held : r.bitsAvail ≥ count := by omega
  have nonempty : r.bitsAvail - count ≠ 0 := by omega
  simp only [readUBitLong, held, if_true, nonempty, ne_eq, not_false_eq_true]

/-- A read of exactly the bits in the word refills it. -/
theorem readUBitLong_emptied (memory : Int → Byte) (r : CBitRead) (count : Nat)
    (exact : r.bitsAvail = count) :
    r.readUBitLong memory count = (r.inBufWord &&& maskTable count,
      fetchNext memory { r with bitsAvail := 0 }) := by
  simp only [readUBitLong, exact, ge_iff_le, Int.le_refl, if_true, Int.sub_self, ne_eq,
    not_true_eq_false, if_false]

/-- A read of more bits than the word holds merges the next word when there is one. -/
theorem readUBitLong_merged (memory : Int → Byte) (r : CBitRead) (count avail : Nat)
    (counted : r.bitsAvail = avail) (fewer : avail < count) (clear : r.overflow = false)
    (before : r.dataIn < r.bufferEnd) :
    r.readUBitLong memory count =
      (r.inBufWord ||| ((loadWord memory r.dataIn &&& maskTable (count - avail)) <<< avail),
        { r with
          inBufWord := loadWord memory r.dataIn >>> (count - avail)
          dataIn := r.dataIn + 4
          bitsAvail := 32 - ((count - avail : Nat) : Int) }) := by
  have short : ¬ (avail : Int) ≥ count := by omega
  have left : (count : Int) - avail = ((count - avail : Nat) : Int) := by omega
  simp only [readUBitLong, counted, short, if_false, grabNextDWord_inside memory r true before,
    clear, Bool.false_eq_true, left, Int.toNat_natCast]

/-- A read of bits that the word holds returns the window at the position and
    advances by as many bits, whether or not the flag is raised. -/
theorem readUBitLong_within (memory : Int → Byte) (bytes : Nat) (raised : Bool) (r : CBitRead)
    (position count : Nat) (opened : Opened bytes r) (flag : r.overflow = raised)
    (loaded : Loaded memory bytes r position) (width : count ≤ 32)
    (inside : position + count ≤ 8 * bytes) (enough : (count : Int) ≤ r.bitsAvail) :
    (r.readUBitLong memory count).1.toNat = value (window (bitList memory bytes) position count) ∧
      At memory bytes raised (r.readUBitLong memory count).2 (position + count) := by
  have masked : (r.inBufWord &&& maskTable count).toNat =
      value (window (bitList memory bytes) position count) := by
    apply value_eq_of_testBit
    intro index
    rw [window_getD memory bytes position count index inside, BitVec.testBit_toNat,
      BitVec.getLsbD_and, maskTable_bit count index width, loaded.word]
    by_cases within : index < count
    · have held : (index : Int) < r.bitsAvail := by omega
      simp [within, held]
    · simp [within]
  rcases Int.lt_or_eq_of_le enough with more | exact
  · rw [readUBitLong_held memory r count more]
    exact ⟨masked, advance_at memory bytes raised r position count opened flag loaded more⟩
  · rw [readUBitLong_emptied memory r count exact.symm]
    have balance := loaded.balance
    exact ⟨masked, fetchNext_at memory bytes raised { r with bitsAvail := 0 } (position + count)
      (opened.moved ..) flag
      loaded.aligned loaded.inside (by simp only; omega)⟩

/-- Reading bits inside the buffer returns the window at the position, keeps the
    flag clear and advances by exactly the requested number.

The word either holds all bits, with a refill when they empty it, or it is
merged with the low bits of the next word, which then must exist. -/
theorem readUBitLong_at (memory : Int → Byte) (bytes : Nat) (r : CBitRead)
    (position count : Nat) (standing : At memory bytes false r position)
    (positive : 1 ≤ count) (width : count ≤ 32) (inside : position + count ≤ 8 * bytes) :
    (r.readUBitLong memory count).1.toNat = value (window (bitList memory bytes) position count) ∧
      At memory bytes false (r.readUBitLong memory count).2 (position + count) := by
  obtain ⟨loaded, available⟩ := standing.loaded (by omega)
  obtain ⟨opened, clear, -⟩ := standing
  by_cases enough : (count : Int) ≤ r.bitsAvail
  · exact readUBitLong_within memory bytes false r position count opened clear loaded width inside
      enough
  · obtain ⟨lower, upper, drained, aligned, stored, balance, word⟩ := loaded
    obtain ⟨avail, counted⟩ := Int.eq_ofNat_of_zero_le lower
    have before : r.dataIn < r.bufferEnd := by
      have := opened.bufferEnd
      omega
    have boundary : 8 * r.dataIn = ((position + avail : Nat) : Int) := by omega
    have next (index : Nat) := loaded_word_bits memory r.dataIn (position + avail) index boundary
    rw [readUBitLong_merged memory r count avail counted (by omega) clear before]
    constructor
    · apply value_eq_of_testBit
      intro index
      rw [window_getD memory bytes position count index inside, BitVec.testBit_toNat,
        BitVec.getLsbD_or, BitVec.getLsbD_shiftLeft, BitVec.getLsbD_and,
        maskTable_bit (count - avail) _ (by omega), next, word, counted]
      by_cases low : index < avail
      · have within : index < count := by omega
        simp [low, within]
      · by_cases within : index < count
        · have sum : position + avail + (index - avail) = position + index := by omega
          have stored : index < 32 := Nat.lt_of_lt_of_le within width
          have merged : index - avail < count - avail := by omega
          have next : ((index - avail : Nat) : Int) < 32 := by omega
          simp [low, within, sum, stored, merged, next]
        · have cut : ¬ index - avail < count - avail := by omega
          simp [low, within, cut]
    · have merged : At memory bytes false
          { r with inBufWord := loadWord memory r.dataIn >>> (count - avail), dataIn := r.dataIn + 4,
                   bitsAvail := 32 - ((count - avail : Nat) : Int) }
          (position + avail + (count - avail)) :=
        advance_at memory bytes false
          { r with inBufWord := loadWord memory r.dataIn, dataIn := r.dataIn + 4, bitsAvail := 32 }
          (position + avail) (count - avail)
          (opened.moved ..) clear
          ⟨by simp, by simp, by simp, by simp only; omega, by simp only; omega,
            by simp only; omega, next⟩ (by simp only; omega)
      have sum : position + avail + (count - avail) = position + count := by omega
      rw [sum] at merged
      exact merged

/-- A read at the end of a buffer of at least one word returns zero, raises the
    flag and stays there. -/
theorem readUBitLong_end (memory : Int → Byte) (bytes : Nat) (raised : Bool) (r : CBitRead)
    (count : Nat) (standing : At memory bytes raised r (8 * bytes)) (large : 4 ≤ bytes)
    (several : 2 ≤ count) :
    (r.readUBitLong memory count).1 = 0 ∧
      At memory bytes true (r.readUBitLong memory count).2 (8 * bytes) := by
  obtain ⟨opened, -, loaded | spent⟩ := standing
  · have empty : r.bitsAvail = 0 := by
      have := loaded.balance
      have := loaded.inside
      have := loaded.lower
      omega
    have := (loaded.drained empty).2
    omega
  · obtain ⟨finished, pointer, fake, zero⟩ := spent
    have short : ¬ r.bitsAvail ≥ count := by omega
    have past : r.bufferEnd < r.dataIn := by
      have := opened.bufferEnd
      omega
    simp only [readUBitLong, short, if_false, grabNextDWord_past memory r true past, if_true]
    exact ⟨trivial, opened.moved .., rfl,
      .inr ⟨rfl, pointer, fake, rfl⟩⟩

/-- A single bit that leaves others in the word shifts it out. -/
theorem readOneBit_held (memory : Int → Byte) (r : CBitRead) (more : int32 (r.bitsAvail - 1) ≠ 0) :
    r.readOneBit memory = (((r.inBufWord &&& 1#32).toNat : Int),
      { r with bitsAvail := int32 (r.bitsAvail - 1), inBufWord := r.inBufWord >>> 1 }) := by
  simp only [readOneBit, more, if_false]

/-- A single bit that is the last in the word refills it. -/
theorem readOneBit_emptied (memory : Int → Byte) (r : CBitRead)
    (last : int32 (r.bitsAvail - 1) = 0) :
    r.readOneBit memory = (((r.inBufWord &&& 1#32).toNat : Int),
      fetchNext memory { r with bitsAvail := 0 }) := by
  simp only [readOneBit, last, if_true]

/-- While the word holds a bit, reading one bit and reading a number of one bit
    are the same. -/
theorem readOneBit_eq (memory : Int → Byte) (r : CBitRead) (lower : 1 ≤ r.bitsAvail)
    (upper : r.bitsAvail ≤ 32) :
    r.readOneBit memory =
      (((r.readUBitLong memory 1).1.toNat : Int), (r.readUBitLong memory 1).2) := by
  have stored : int32 (r.bitsAvail - 1) = r.bitsAvail - 1 :=
    int32_of_fits (by omega) (by omega)
  have mask : maskTable 1 = 1#32 := by decide
  by_cases emptied : r.bitsAvail = (1 : Nat)
  · rw [readUBitLong_emptied memory r 1 emptied, readOneBit_emptied memory r (by omega), mask]
  · rw [readUBitLong_held memory r 1 (by omega), readOneBit_held memory r (by omega), mask, stored]
    rfl

/-- A single bit is read through the same word and the same refill. -/
theorem readOneBit_at (memory : Int → Byte) (bytes : Nat) (r : CBitRead) (position : Nat)
    (standing : At memory bytes false r position) (inside : position + 1 ≤ 8 * bytes) :
    (r.readOneBit memory).1 = value (window (bitList memory bytes) position 1) ∧
      At memory bytes false (r.readOneBit memory).2 (position + 1) := by
  obtain ⟨loaded, available⟩ := standing.loaded (by omega)
  obtain ⟨result, advanced⟩ := readUBitLong_at memory bytes r position 1 standing
    (by decide) (by decide) inside
  rw [readOneBit_eq memory r available loaded.upper]
  exact ⟨by rw [result], advanced⟩

/-- Shifting a value of the given width to the top of the word and back with
    sign extension is its two's complement reading. -/
theorem sign_extension (word : BitVec 32) (count : Nat) (width : count ≤ 32)
    (low : word.toNat < 2 ^ count) :
    ((word <<< (32 - count)).sshiftRight (32 - count)).toInt = twosComplement count word.toNat := by
  have split : 2 ^ 32 = 2 ^ count * 2 ^ (32 - count) := by
    rw [← Nat.pow_add, Nat.add_sub_cancel' width]
  have scale : 0 < 2 ^ (32 - count) := Nat.two_pow_pos _
  have shifted : (word <<< (32 - count)).toNat = word.toNat * 2 ^ (32 - count) := by
    rw [BitVec.toNat_shiftLeft, Nat.shiftLeft_eq]
    apply Nat.mod_eq_of_lt
    rw [split]
    exact Nat.mul_lt_mul_of_pos_right low scale
  have divided (number : Int) :
      number * ((2 ^ (32 - count) : Nat) : Int) / ((2 ^ (32 - count) : Nat) : Int) = number :=
    Int.mul_ediv_cancel number (by omega)
  rw [BitVec.toInt_sshiftRight, Int.shiftRight_eq_div_pow, BitVec.toInt_eq_toNat_cond, shifted,
    twosComplement]
  have sameTest : 2 * (word.toNat * 2 ^ (32 - count)) < 2 ^ 32 ↔ 2 * word.toNat < 2 ^ count := by
    rw [← Nat.mul_assoc, split]
    exact Nat.mul_lt_mul_right scale
  by_cases negative : 2 * word.toNat < 2 ^ count
  · rw [if_pos (sameTest.mpr negative), if_pos negative, Int.natCast_mul, divided]
  · rw [if_neg (fun small => negative (sameTest.mp small)), if_neg negative]
    have factored : ((word.toNat * 2 ^ (32 - count) : Nat) : Int) - ((2 ^ 32 : Nat) : Int) =
        ((word.toNat : Int) - 2 ^ count) * ((2 ^ (32 - count) : Nat) : Int) := by
      rw [split, Int.sub_mul, Int.natCast_mul, Int.natCast_mul, Int.natCast_pow]
      rfl
    rw [factored, divided]

/-- A signed read is the two's complement reading of the same window. -/
theorem readSBitLong_at (memory : Int → Byte) (bytes : Nat) (r : CBitRead)
    (position count : Nat) (standing : At memory bytes false r position)
    (positive : 1 ≤ count) (width : count ≤ 32) (inside : position + count ≤ 8 * bytes) :
    (r.readSBitLong memory count).1 =
        twosComplement count (value (window (bitList memory bytes) position count)) ∧
      At memory bytes false (r.readSBitLong memory count).2 (position + count) := by
  obtain ⟨result, advanced⟩ := readUBitLong_at memory bytes r position count standing positive
    width inside
  have low : (r.readUBitLong memory count).1.toNat < 2 ^ count := by
    have bound := value_bound (window (bitList memory bytes) position count)
    have length : (window (bitList memory bytes) position count).length = count := by
      simp [window]
      omega
    rw [length] at bound
    rwa [result]
  refine ⟨?_, advanced⟩
  rw [← result]
  exact sign_extension _ count width low

/-- The partial head word holds exactly the bits of the head bytes. -/
theorem headWord_bit (memory : Int → Byte) (nHead index : Nat) (present : 1 ≤ nHead)
    (fewer : nHead < 4) :
    (headWord memory nHead).getLsbD index =
      (decide (index < 8 * nHead) && memoryBit memory index) := by
  have byteAt (address : Nat) (low : 8 * address ≤ index) (high : index < 8 * address + 8) :
      memoryBit memory index = (memory address).getLsbD (index - 8 * address) := by
    have split : index = 8 * address + (index - 8 * address) := by omega
    rw [← memoryBit_byte memory address _ (by omega), ← split]
  have outside (address : Int) (offset : Nat) (high : 8 ≤ offset) :
      (memory address).getLsbD offset = false := BitVec.getLsbD_of_ge _ _ high
  have counted : nHead = 1 ∨ nHead = 2 ∨ nHead = 3 := by omega
  have placed : index < 8 ∨ 8 ≤ index ∧ index < 16 ∨ 16 ≤ index ∧ index < 24 ∨ 24 ≤ index := by omega
  rcases placed with first | ⟨low, high⟩ | ⟨low, high⟩ | past
  · have zero := byteAt 0 (by omega) (by omega)
    have second : index < 16 := by omega
    have third : index < 24 := by omega
    have stored : index < 32 := by omega
    rcases counted with rfl | rfl | rfl <;> simp [headWord, zero, first, second, third, stored]
  · have one := byteAt 1 low high
    have first : ¬ index < 8 := Nat.not_lt.mpr low
    have third : index < 24 := by omega
    have stored : index < 32 := by omega
    rcases counted with rfl | rfl | rfl <;>
      simp [headWord, one, outside 0 index low, first, high, third, stored]
  · have two := byteAt 2 low high
    have first : ¬ index < 8 := by omega
    have second : ¬ index < 16 := Nat.not_lt.mpr low
    have stored : index < 32 := by omega
    rcases counted with rfl | rfl | rfl <;>
      simp [headWord, two, outside 0 index (by omega), outside 1 (index - 8) (by omega), first, second,
        high, stored]
  · have first : ¬ index < 8 := by omega
    have second : ¬ index < 16 := by omega
    have third : ¬ index < 24 := Nat.not_lt.mpr past
    rcases counted with rfl | rfl | rfl <;>
      simp [headWord, outside 0 index (by omega), outside 1 (index - 8) (by omega),
        outside 2 (index - 16) (by omega), first, second, third]

/-- Building the partial head word steps over exactly the head bytes. -/
theorem headBytes_exact (nHead : Nat) (present : 1 ≤ nHead) (fewer : nHead < 4) :
    headBytes nHead = nHead := by
  have counted : nHead = 1 ∨ nHead = 2 ∨ nHead = 3 := by omega
  rcases counted with rfl | rfl | rfl <;> rfl

/-- The guard of a seek admits every position of the bit list. -/
theorem seek_admitted (bytes : Nat) (r : CBitRead) (position : Nat)
    (opened : Opened bytes r) (inside : position ≤ 8 * bytes) :
    (!(decide ((position : Int) < 0) || decide ((position : Int) > r.dataBits))) = true := by
  have := opened.dataBits
  simp only [Bool.not_eq_true', Bool.or_eq_false_iff, decide_eq_false_iff_not]
  omega

/-- A seek into the partial head rebuilds its word and shifts it to the position. -/
theorem seek_head (memory : Int → Byte) (bytes : Nat) (r : CBitRead) (position : Nat)
    (opened : Opened bytes r) (inside : position ≤ 8 * bytes) (head : 1 ≤ bytes % 4)
    (low : bytes < 4 ∨ position / 8 < bytes % 4) :
    r.seek memory position = (true, { r with
      dataIn := (bytes % 4 : Nat)
      inBufWord := headWord memory (bytes % 4) >>> position
      bitsAvail := 8 * ((bytes % 4 : Nat) : Int) - position }) := by
  have branch : bytes < 4 ∨
      bytes % 4 ≠ 0 ∧ (position : Int).tdiv 8 < (bytes % 4 : Nat) := by
    rw [Int.tdiv_eq_ediv_of_nonneg (by omega)]
    omega
  have small : (position : Int) % 32 = position := by omega
  simp only [seek, seek_admitted bytes r position opened inside, if_true, opened.dataBytes, branch,
    opened.data, small, headBytes_exact (bytes % 4) head (by omega), Int.toNat_natCast]

/-- A seek past the partial head loads the word that contains the position. -/
theorem seek_word (memory : Int → Byte) (bytes : Nat) (r : CBitRead) (adjusted : Nat)
    (opened : Opened bytes r) (large : 4 ≤ bytes)
    (before : 4 * (adjusted / 32) + bytes % 4 < bytes) :
    r.seek memory ((8 * (bytes % 4) + adjusted : Nat) : Int) = (true, { r with
      inBufWord := loadWord memory ((4 * (adjusted / 32) + bytes % 4 : Nat) : Int) >>> (adjusted % 32)
      dataIn := ((4 * (adjusted / 32) + bytes % 4 : Nat) : Int) + 4
      bitsAvail := 32 - ((adjusted % 32 : Nat) : Int) }) := by
  have branch : ¬ (bytes < 4 ∨ bytes % 4 ≠ 0 ∧
      ((8 * (bytes % 4) + adjusted : Nat) : Int).tdiv 8 < (bytes % 4 : Nat)) := by
    rw [Int.tdiv_eq_ediv_of_nonneg (by omega)]
    omega
  have offset : ((8 * (bytes % 4) + adjusted : Nat) : Int) - 8 * ((bytes % 4 : Nat) : Int) =
      (adjusted : Int) := by omega
  have divided : 4 * (adjusted : Int).tdiv 32 + ((bytes % 4 : Nat) : Int) =
      ((4 * (adjusted / 32) + bytes % 4 : Nat) : Int) := by
    rw [Int.tdiv_eq_ediv_of_nonneg (by omega)]
    omega
  have remainder : (adjusted : Int) % 32 = ((adjusted % 32 : Nat) : Int) := by omega
  have least : min 32 (32 - ((adjusted % 32 : Nat) : Int)) = 32 - ((adjusted % 32 : Nat) : Int) := by
    omega
  have stored : ((4 * (adjusted / 32) + bytes % 4 : Nat) : Int) < r.bufferEnd := by
    have := opened.bufferEnd
    omega
  simp only [seek, seek_admitted bytes r _ opened (by omega : 8 * (bytes % 4) + adjusted ≤ 8 * bytes),
    if_true, opened.dataBytes, branch, if_false, opened.data, offset, divided, remainder,
    Int.toNat_natCast]
  rw [grabNextDWord_inside memory _ false stored]
  simp only [least]

/-- A seek to the exact end of a buffer of at least one word installs the fake word. -/
theorem seek_end (memory : Int → Byte) (bytes : Nat) (r : CBitRead)
    (opened : Opened bytes r) (large : 4 ≤ bytes) :
    r.seek memory ((8 * bytes : Nat) : Int) = (true, { r with
      inBufWord := 0
      dataIn := (bytes : Int) + 4
      bitsAvail := 1 }) := by
  have branch : ¬ (bytes < 4 ∨ bytes % 4 ≠ 0 ∧
      ((8 * bytes : Nat) : Int).tdiv 8 < (bytes % 4 : Nat)) := by
    rw [Int.tdiv_eq_ediv_of_nonneg (by omega)]
    omega
  have pointed : 4 * (((8 * bytes : Nat) : Int) - 8 * ((bytes % 4 : Nat) : Int)).tdiv 32 +
      ((bytes % 4 : Nat) : Int) = bytes := by
    rw [Int.tdiv_eq_ediv_of_nonneg (by omega)]
    omega
  have remainder : (((8 * bytes : Nat) : Int) - 8 * ((bytes % 4 : Nat) : Int)) % 32 = 0 := by omega
  simp only [seek, seek_admitted bytes r _ opened (Nat.le_refl _), if_true, opened.dataBytes, branch,
    if_false, opened.data, pointed, remainder]
  rw [grabNextDWord_end memory _ false (by simp only [opened.bufferEnd])]
  simp

/-- A seek to any position of the bit list succeeds, keeps the flag and stands at
    that position, whatever the reader held before.

The head branch shifts the rebuilt partial word. The other branch addresses the
word that contains the position, or the exact end, where the fake word is kept. -/
theorem seek_at (memory : Int → Byte) (bytes : Nat) (raised : Bool) (r : CBitRead)
    (position : Nat) (opened : Opened bytes r) (flag : r.overflow = raised) (nonempty : 1 ≤ bytes)
    (inside : position ≤ 8 * bytes) :
    (r.seek memory position).1 = true ∧
      At memory bytes raised (r.seek memory position).2 position := by
  by_cases head : 1 ≤ bytes % 4 ∧ (bytes < 4 ∨ position / 8 < bytes % 4)
  · obtain ⟨present, low⟩ := head
    rw [seek_head memory bytes r position opened inside present low]
    refine ⟨rfl, opened.moved .., flag, .inl ?_⟩
    constructor
    case word =>
      intro index
      rw [BitVec.getLsbD_ushiftRight, headWord_bit memory _ _ present (by omega)]
      congr 1
      exact decide_eq_decide.mpr (by simp only; omega)
    all_goals (simp only; omega)
  · obtain ⟨adjusted, rfl⟩ : ∃ adjusted, position = 8 * (bytes % 4) + adjusted :=
      ⟨position - 8 * (bytes % 4), by omega⟩
    by_cases finished : 4 * (adjusted / 32) + bytes % 4 = bytes
    · have last : 8 * (bytes % 4) + adjusted = 8 * bytes := by omega
      rw [last, seek_end memory bytes r opened (by omega)]
      exact ⟨rfl, opened.moved .., flag,
        .inr ⟨rfl, rfl, rfl, rfl⟩⟩
    · rw [seek_word memory bytes r adjusted opened (by omega) (by omega)]
      have start : 8 * ((4 * (adjusted / 32) + bytes % 4 : Nat) : Int) =
          ((8 * (bytes % 4) + 32 * (adjusted / 32) : Nat) : Int) := by omega
      have advanced := advance_at memory bytes raised
        { r with
          inBufWord := loadWord memory ((4 * (adjusted / 32) + bytes % 4 : Nat) : Int)
          dataIn := ((4 * (adjusted / 32) + bytes % 4 : Nat) : Int) + 4
          bitsAvail := 32 }
        (8 * (bytes % 4) + 32 * (adjusted / 32)) (adjusted % 32)
        (opened.moved ..) flag
        ⟨by simp, by simp, by simp, by simp only; omega, by simp only; omega, by simp only; omega,
          fun index => loaded_word_bits memory _ _ index start⟩ (by simp only; omega)
      have target : 8 * (bytes % 4) + 32 * (adjusted / 32) + adjusted % 32 =
          8 * (bytes % 4) + adjusted := by omega
      rw [target] at advanced
      exact ⟨rfl, advanced⟩

/-- A seek to any other target reports failure, raises the flag and goes to the
    end of the buffer. -/
theorem seek_refused (memory : Int → Byte) (bytes : Nat) (r : CBitRead) (target : Int)
    (opened : Opened bytes r) (nonempty : 1 ≤ bytes)
    (outside : target < 0 ∨ 8 * (bytes : Int) < target) :
    (r.seek memory target).1 = false ∧
      At memory bytes true (r.seek memory target).2 (8 * bytes) := by
  have last : r.dataBits = ((8 * bytes : Nat) : Int) := by
    rw [opened.dataBits]
    omega
  have refused : (!(decide (target < 0) || decide (target > ((8 * bytes : Nat) : Int)))) = false := by
    simp only [Bool.not_eq_false', Bool.or_eq_true, decide_eq_true_eq]
    omega
  have admitted : (!(decide (((8 * bytes : Nat) : Int) < 0) ||
      decide (((8 * bytes : Nat) : Int) > ((8 * bytes : Nat) : Int)))) = true := by
    simp only [Bool.not_eq_true', Bool.or_eq_false_iff, decide_eq_false_iff_not]
    omega
  have flagged : Opened bytes r.setOverflowFlag :=
    (opened.moved ..)
  have same : r.seek memory target =
      (false, (r.setOverflowFlag.seek memory ((8 * bytes : Nat) : Int)).2) := by
    simp only [seek, setOverflowFlag, last, refused, admitted, Bool.false_eq_true, if_false, if_true]
    split <;> rfl
  rw [same]
  exact ⟨rfl, (seek_at memory bytes true _ (8 * bytes) flagged rfl nonempty (Nat.le_refl _)).2⟩

/-- The reported position is the clamped balance of pointer and available bits.
    Only the last addition, of the head bits, can leave the range of an `int`. -/
theorem getNumBitsRead_balance (bytes : Nat) (r : CBitRead) (opened : Opened bytes r)
    (fits : 8 * bytes < 2147483648) (aligned : r.dataIn % 4 = (bytes : Int) % 4)
    (low : 0 ≤ r.dataIn) (high : r.dataIn ≤ bytes + 4)
    (lower : 0 ≤ r.bitsAvail) (upper : r.bitsAvail ≤ 32)
    (word : r.dataIn ≤ bytes ∨ 1 ≤ r.bitsAvail) :
    r.getNumBitsRead = if int32 (8 * r.dataIn - r.bitsAvail) < 8 * bytes
      then int32 (8 * r.dataIn - r.bitsAvail) else 8 * bytes := by
  have pointer : int32 r.dataIn = r.dataIn := int32_of_fits (by omega) (by omega)
  have sum : (r.dataIn / 4 - 1) * 32 + (32 - r.bitsAvail) + 8 * ((bytes % 4 : Nat) : Int) =
      8 * r.dataIn - r.bitsAvail := by omega
  simp only [getNumBitsRead, opened.data, if_true, opened.dataBytes, opened.dataBits]
  rw [pointer, Int.tdiv_eq_ediv_of_nonneg low,
    int32_of_fits (z := (r.dataIn / 4 - 1) * 32) (by omega) (by omega),
    int32_of_fits (z := (r.dataIn / 4 - 1) * 32 + (32 - r.bitsAvail)) (by omega) (by omega), sum]

/-- The reported position is exact while the sum of words and head bits, which
    includes the fake word at the end, still fits an `int`. -/
theorem getNumBitsRead_at (memory : Int → Byte) (bytes : Nat) (raised : Bool) (r : CBitRead)
    (position : Nat) (standing : At memory bytes raised r position) (fits : 8 * bytes < 2147483648)
    (room : 8 * bytes + 31 < 2147483648 ∨ position < 8 * bytes) :
    r.getNumBitsRead = position := by
  obtain ⟨opened, -, loaded | spent⟩ := standing
  · obtain ⟨lower, upper, drained, aligned, inside, balance, word⟩ := loaded
    rw [getNumBitsRead_balance bytes r opened fits aligned (by omega) (by omega) lower upper (.inl inside),
      int32_of_fits (by omega) (by omega)]
    split <;> omega
  · obtain ⟨finished, pointed, fake, zero⟩ := spent
    rw [getNumBitsRead_balance bytes r opened fits (by omega) (by omega) (by omega) (by omega)
      (by omega) (.inr (Int.le_of_eq fake.symm)), int32_of_fits (by omega) (by omega)]
    split <;> omega

/-- A reader with a clear flag that stands at a position, and reports it wherever the sum of
    words and head bits fits an `int`. -/
structure StandsAt (memory : Int → Byte) (bytes : Nat) (r : CBitRead) (position : Nat) : Prop where
  standing : At memory bytes false r position
  reported : 8 * bytes < 2147483648 → (8 * bytes + 31 < 2147483648 ∨ position < 8 * bytes) →
    r.getNumBitsRead = position

/-- The relation determines the reported position. -/
theorem At.standsAt {memory : Int → Byte} {bytes : Nat} {r : CBitRead} {position : Nat}
    (standing : At memory bytes false r position) : StandsAt memory bytes r position :=
  ⟨standing, getNumBitsRead_at memory bytes false r position standing⟩

/-- At the end of a larger buffer the fake word pushes the sum past the largest
    `int` before the clamp can hide it, and the reported position is negative. -/
theorem getNumBitsRead_end_wraps (memory : Int → Byte) (bytes : Nat) (raised : Bool) (r : CBitRead)
    (standing : At memory bytes raised r (8 * bytes)) (fits : 8 * bytes < 2147483648)
    (tight : 2147483648 ≤ 8 * bytes + 31) :
    r.getNumBitsRead < 0 := by
  obtain ⟨opened, -, loaded | spent⟩ := standing
  · obtain ⟨lower, upper, drained, aligned, inside, balance, word⟩ := loaded
    omega
  · obtain ⟨finished, pointed, fake, zero⟩ := spent
    rw [getNumBitsRead_balance bytes r opened fits (by omega) (by omega) (by omega) (by omega)
      (by omega) (.inr (Int.le_of_eq fake.symm))]
    unfold int32
    split <;> omega

/-- A freshly constructed reader stands at the first bit, whatever the storage
    held before. -/
theorem construct_at (memory : Int → Byte) (storage : CBitRead) (bytes : Nat)
    (nonempty : 1 ≤ bytes) (fits : 8 * bytes < 2147483648) :
    At memory bytes false (construct memory storage bytes) 0 := by
  have stored : int32 (8 * (bytes : Int)) = 8 * bytes := int32_of_fits (by omega) (by omega)
  have seeking := seek_at memory bytes false
    { storage with
      data := true, dataIn := 0, dataBytes := bytes, dataBits := 8 * bytes, overflow := false,
      bufferEnd := bytes } 0 ⟨rfl, rfl, rfl, rfl⟩ rfl nonempty (by omega)
  simpa [construct, startReading, stored] using seeking.2

end Sniffles.CBitRead
