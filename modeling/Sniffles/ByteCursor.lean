import Sniffles.BitCursor
import Sniffles.Foundations.Base128

/-!
# The reader as a byte cursor

A buffer of complete words that is read a byte at a time never merges two words,
so the overflow flag does not influence what is read: the reader behaves as a
byte position. Every byte past the end reads as zero and leaves the position at
the end. Variable-length numbers are then read as in the byte sequence, and a
relative seek by whole bytes lands either on its target or at the end.
-/

namespace Sniffles.CBitRead

open BitSequences MachineIntegers Base128

/-- The bytes a reader of the buffer sees, with zeros past the end. -/
def cells (memory : Int → Byte) (bytes position : Nat) : Byte :=
  if position < bytes then memory position else 0

/-- The reader stands at a byte position of the buffer or at its end. -/
structure AtByte (memory : Int → Byte) (bytes : Nat) (raised : Bool) (r : CBitRead)
    (position : Nat) : Prop where
  inside : position ≤ bytes
  standing : At memory bytes raised r (8 * position)

/-- Where a seek to a bit position ends: at the byte there, or at the end of the
    buffer if it is refused. -/
def landing (bytes : Nat) (target : Int) : Nat :=
  if 0 ≤ target ∧ target ≤ 8 * (bytes : Int) then (target / 8).toNat else bytes

/-- Eight bits of the bit list are a byte of the memory. -/
theorem window_byte (memory : Int → Byte) (bytes position : Nat) (inside : position < bytes) :
    value (window (bitList memory bytes) (8 * position) 8) = (memory position).toNat := by
  symm
  apply value_eq_of_testBit
  intro index
  rw [window_getD memory bytes _ 8 index (by omega), BitVec.testBit_toNat]
  by_cases low : index < 8
  · rw [memoryBit_byte memory position index low]
    simp [low]
  · simp [low, BitVec.getLsbD_of_ge _ _ (Nat.le_of_not_lt low)]

/-- In a buffer of complete words, a reader at a byte position before the end
    holds a whole byte. -/
theorem Loaded.byte {memory : Int → Byte} {bytes : Nat} {r : CBitRead} {position : Nat}
    (loaded : Loaded memory bytes r (8 * position)) (words : bytes % 4 = 0)
    (available : 1 ≤ r.bitsAvail) : 8 ≤ r.bitsAvail := by
  have aligned := loaded.aligned
  have balance := loaded.balance
  omega

/-- A byte is read as the byte sequence has it, and the position advances by one.
    At the end it stays there and the flag is raised. -/
theorem readUBitLong_byte (memory : Int → Byte) (bytes : Nat) (raised : Bool) (r : CBitRead)
    (position : Nat) (words : bytes % 4 = 0) (large : 4 ≤ bytes)
    (standing : AtByte memory bytes raised r position) :
    (r.readUBitLong memory 8).1 = (cells memory bytes position).setWidth 32 ∧
      AtByte memory bytes (raised || decide (bytes ≤ position)) (r.readUBitLong memory 8).2
        (min (position + 1) bytes) := by
  obtain ⟨inside, placed⟩ := standing
  rcases Nat.lt_or_eq_of_le inside with before | rfl
  · obtain ⟨loaded, available⟩ := placed.loaded (by omega)
    obtain ⟨read, advanced⟩ := readUBitLong_within memory bytes raised r (8 * position) 8
      placed.opened placed.flag loaded (by decide) (by omega) (loaded.byte words available)
    have next : min (position + 1) bytes = position + 1 := by omega
    rw [window_byte memory bytes position before] at read
    have within : (raised || decide (bytes ≤ position)) = raised := by
      simp [Nat.not_le_of_lt before]
    rw [next, within, cells, if_pos before]
    refine ⟨?_, before, advanced⟩
    apply BitVec.eq_of_toNat_eq
    rw [read, BitVec.toNat_setWidth]
    exact (Nat.mod_eq_of_lt (Nat.lt_trans (memory position).isLt (by decide))).symm
  · obtain ⟨zero, stayed⟩ := readUBitLong_end memory position raised r 8 placed large (by decide)
    have last : min (position + 1) position = position := by omega
    have past : (raised || decide (position ≤ position)) = true := by simp
    rw [last, past, cells, if_neg (Nat.lt_irrefl _)]
    exact ⟨zero, Nat.le_refl _, stayed⟩

/-- The word test for a following group is the test of the byte's high bit. -/
theorem continuation_test (byte : Byte) :
    byte.setWidth 32 &&& 0x80#32 ≠ 0 ↔ continues byte = true := by
  revert byte
  decide

/-- Only a byte inside the buffer can be followed by another group. -/
theorem continues_inside (memory : Int → Byte) (bytes position : Nat)
    (more : continues (cells memory bytes position) = true) : position < bytes := by
  by_contra past
  rw [cells, if_neg past] at more
  cases more

/-- A variable-length number is read as the byte sequence has it. The position
    after it is that of the sequence, but never past the end; the flag is raised
    if the sequence passed the end.

Induct over the bytes still allowed. A byte past the end is zero and ends the
number, so a further byte is read only inside the buffer. -/
theorem readVarInt32Loop_byte (memory : Int → Byte) (bytes : Nat) (words : bytes % 4 = 0)
    (large : 4 ≤ bytes) (left count : Nat) (result : BitVec 32) (raised : Bool) (r : CBitRead)
    (position : Nat) (standing : AtByte memory bytes raised r position) :
    (readVarInt32Loop memory left count result r).1 =
        (decodeFrom (cells memory bytes) left count result position).1 ∧
      AtByte memory bytes
        (raised || decide (bytes < (decodeFrom (cells memory bytes) left count result position).2))
        (readVarInt32Loop memory left count result r).2
        (min (decodeFrom (cells memory bytes) left count result position).2 bytes) := by
  induction left generalizing count result r position with
  | zero =>
    have stays : min position bytes = position := Nat.min_eq_left standing.inside
    have within : (raised || decide (bytes < position)) = raised := by
      simp [Nat.not_lt_of_le standing.inside]
    refine ⟨rfl, ?_⟩
    rw [decodeFrom, stays, within]
    exact standing
  | succ left inductionHypothesis =>
    obtain ⟨read, advanced⟩ := readUBitLong_byte memory bytes raised r position words large standing
    have joined : ((cells memory bytes position).setWidth 32 &&& 0x7F#32) <<< (7 * count) =
        group 32 (cells memory bytes position) count := rfl
    simp only [readVarInt32Loop, decodeFrom, read, joined]
    by_cases more : continues (cells memory bytes position) = true
    · have before : position < bytes := continues_inside memory bytes position more
      have next : min (position + 1) bytes = position + 1 := by omega
      have within : (raised || decide (bytes ≤ position)) = raised := by
        simp [Nat.not_le_of_lt before]
      rw [next, within] at advanced
      have test := (continuation_test _).mpr more
      simp only [test, more, if_true, ne_eq, not_false_eq_true]
      exact inductionHypothesis (count + 1) _ _ (position + 1) advanced
    · have test := mt (continuation_test (cells memory bytes position)).mp more
      simp only [test, more, if_false, Bool.false_eq_true]
      refine ⟨trivial, ?_⟩
      simpa only [Nat.lt_succ_iff] using advanced

/-- Where a number that starts at a byte position stops. -/
def varintStop (memory : Int → Byte) (bytes position : Nat) : Nat :=
  (decodeFrom (cells memory bytes) kMaxVarint32Bytes 0 (0 : BitVec 32) position).2

/-- The value of the number at a byte position and the position a reader has after it. -/
def varint (memory : Int → Byte) (bytes position : Nat) : BitVec 32 × Nat :=
  ((decodeFrom (cells memory bytes) kMaxVarint32Bytes 0 0 position).1,
    min (varintStop memory bytes position) bytes)

theorem readVarInt32_byte (memory : Int → Byte) (bytes : Nat) (raised : Bool) (r : CBitRead)
    (position : Nat) (words : bytes % 4 = 0) (large : 4 ≤ bytes)
    (standing : AtByte memory bytes raised r position) :
    (r.readVarInt32 memory).1 = (varint memory bytes position).1 ∧
      AtByte memory bytes (raised || decide (bytes < varintStop memory bytes position))
        (r.readVarInt32 memory).2 (varint memory bytes position).2 :=
  readVarInt32Loop_byte memory bytes words large kMaxVarint32Bytes 0 0 raised r position standing

/-- A number occupies between one and five bytes. -/
theorem varintStop_bounds (memory : Int → Byte) (bytes position : Nat) :
    position < varintStop memory bytes position ∧
      varintStop memory bytes position ≤ position + 5 :=
  decodeFrom_end (cells memory bytes) 4 0 position 0

/-- The reported byte position is the cursor. -/
theorem getNumBytesRead_byte (memory : Int → Byte) (bytes : Nat) (raised : Bool) (r : CBitRead)
    (position : Nat) (standing : AtByte memory bytes raised r position)
    (room : 8 * bytes + 31 < 2147483648) :
    r.getNumBitsRead = 8 * position ∧ r.getNumBytesRead = position := by
  obtain ⟨inside, placed⟩ := standing
  have reported := getNumBitsRead_at memory bytes raised r (8 * position) placed (by omega) (.inl room)
  have bits : r.getNumBitsRead = 8 * (position : Int) := by omega
  refine ⟨bits, ?_⟩
  rw [getNumBytesRead, bits, int32_of_fits (by omega) (by omega)]
  omega

/-- A relative seek by whole bytes lands on its target or at the end. The flag can
    change only if it lands at the end. -/
theorem seekRelative_byte (memory : Int → Byte) (bytes : Nat) (raised : Bool) (r : CBitRead)
    (position : Nat) (offset : Int) (standing : AtByte memory bytes raised r position)
    (nonempty : 1 ≤ bytes) (room : 8 * bytes + 31 < 2147483648) (whole : offset % 8 = 0) :
    ∃ flag, AtByte memory bytes flag (r.seekRelative memory offset).2
        (landing bytes (int32 (8 * position + offset))) ∧
      (landing bytes (int32 (8 * position + offset)) < bytes → flag = raised) := by
  have bits := (getNumBytesRead_byte memory bytes raised r position standing room).1
  obtain ⟨inside, placed⟩ := standing
  have multiple : int32 (8 * position + offset) % 8 = 0 := by
    unfold int32
    omega
  rw [seekRelative, bits]
  by_cases admitted : 0 ≤ int32 (8 * position + offset) ∧
      int32 (8 * position + offset) ≤ 8 * (bytes : Int)
  · obtain ⟨target, reached⟩ : ∃ target : Nat, int32 (8 * position + offset) = (8 * target : Nat) :=
      ⟨(int32 (8 * position + offset) / 8).toNat, by omega⟩
    have moved := seek_at memory bytes raised r (8 * target) placed.opened placed.flag nonempty
      (by omega)
    have landed : landing bytes (int32 (8 * position + offset)) = target := by
      rw [landing, if_pos admitted]
      omega
    rw [landed, reached]
    exact ⟨raised, ⟨by omega, moved.2⟩, fun _ => rfl⟩
  · have refused := seek_refused memory bytes r (int32 (8 * position + offset)) placed.opened
      nonempty (by omega)
    rw [landing, if_neg admitted]
    exact ⟨true, ⟨Nat.le_refl _, refused.2⟩, fun before => absurd before (Nat.lt_irrefl _)⟩

end Sniffles.CBitRead
