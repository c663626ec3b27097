import Sniffles.BitCursor
import Sniffles.Foundations.Base128
import Sniffles.Foundations.ZigZag

/-!
# Variable-length numbers at any bit position

The loops of `ReadVarInt32` and `ReadVarInt64` read eight bits at a time, which
need not be a byte of the buffer. They join these groups exactly as the base-128
reader joins the bytes of the sequence that starts at the reader's position. The
position falls anywhere in the partial head or in a word, and a group may be
merged from two words; the read of eight bits hides all of this.
-/

namespace Sniffles.CBitRead

open BitSequences MachineIntegers Base128

/-- The groups of eight bits from a position. -/
def stream (memory : Int → Byte) (bytes start index : Nat) : Byte :=
  byteAt (bitList memory bytes) (start + 8 * index)

/-- The number of bytes a 32-bit number takes, from the ranges that the source
    lists. -/
def encodedSize32 (number : Nat) : Nat :=
  if number ≤ 127 then 1
  else if number ≤ 16383 then 2
  else if number ≤ 2097151 then 3
  else if number ≤ 268435455 then 4
  else 5

/-- Eight bits read at a position are the group there. -/
theorem readUBitLong_group (memory : Int → Byte) (bytes : Nat) (r : CBitRead) (position : Nat)
    (standing : At memory bytes false r position) (inside : position + 8 ≤ 8 * bytes) :
    (r.readUBitLong memory 8).1 = (byteAt (bitList memory bytes) position).setWidth 32 ∧
      At memory bytes false (r.readUBitLong memory 8).2 (position + 8) := by
  obtain ⟨result, advanced⟩ := readUBitLong_at memory bytes r position 8 standing (by decide)
    (by decide) inside
  refine ⟨?_, advanced⟩
  have small := window_bound (bitList memory bytes) position 8
  apply BitVec.eq_of_toNat_eq
  rw [result, byteAt, BitVec.toNat_setWidth, BitVec.toNat_ofNat, Nat.mod_eq_of_lt small,
    Nat.mod_eq_of_lt (Nat.lt_trans small (by decide))]

/-- A group is widened to a word of any size at once. -/
theorem widened (width : Nat) (byte : Byte) :
    (byte.setWidth 32).setWidth width = byte.setWidth width := by
  apply BitVec.eq_of_toNat_eq
  have small : byte.toNat < 2 ^ 32 := Nat.lt_trans byte.isLt (by decide)
  rw [BitVec.toNat_setWidth, BitVec.toNat_setWidth, BitVec.toNat_setWidth, Nat.mod_eq_of_lt small]

/-- The test for a following group is the test of the group's high bit. -/
theorem continuation_at (width : Nat) (wide : 8 ≤ width) (byte : Byte) :
    byte.setWidth width &&& BitVec.ofNat width 0x80 ≠ 0 ↔ continues byte = true := by
  have high : BitVec.ofNat width 0x80 = BitVec.twoPow width 7 := by
    apply BitVec.eq_of_toNat_eq
    rw [BitVec.toNat_ofNat, BitVec.toNat_twoPow]
  have seven : 7 < width := wide
  have present : BitVec.twoPow width 7 ≠ 0 := by
    intro zero
    have bit := congrArg (fun word : BitVec width => word.getLsbD 7) zero
    simp only [BitVec.getLsbD_twoPow, seven, decide_true, Bool.true_and] at bit
    simp at bit
  have seventh : (byte.setWidth width).getLsbD 7 = continues byte := by
    rw [BitVec.getLsbD_setWidth, continues, decide_eq_true seven, Bool.true_and]
  rw [high, BitVec.and_twoPow, seventh]
  cases continues byte with
  | false => simp
  | true => simpa using present

/-- The 32-bit loop is the general one, where widening changes nothing. -/
theorem readVarInt32Loop_eq (memory : Int → Byte) (left count : Nat) (result : BitVec 32)
    (r : CBitRead) :
    readVarInt32Loop memory left count result r = readVarIntLoop memory 32 left count result r := by
  induction left generalizing count result r with
  | zero => rfl
  | succ left inductionHypothesis =>
    simp only [readVarInt32Loop, readVarIntLoop, BitVec.setWidth_eq, inductionHypothesis]

/-- The loop joins the groups of the stream and stands behind the last.

Induct over the groups still allowed. Each turn reads one group, which the
stopping place bounds, and either ends there or leaves the same claim for the rest. -/
theorem readVarIntLoop_at (memory : Int → Byte) (bytes start width left count index : Nat)
    (wide : 8 ≤ width) (result : BitVec width) (r : CBitRead)
    (standing : At memory bytes false r (start + 8 * index))
    (inside : start + 8 * (decodeFrom (stream memory bytes start) left count result index).2 ≤
      8 * bytes) :
    (readVarIntLoop memory width left count result r).1 =
        (decodeFrom (stream memory bytes start) left count result index).1 ∧
      At memory bytes false (readVarIntLoop memory width left count result r).2
        (start + 8 * (decodeFrom (stream memory bytes start) left count result index).2) := by
  induction left generalizing count result r index with
  | zero => exact ⟨rfl, standing⟩
  | succ left inductionHypothesis =>
    have reached := (decodeFrom_end (stream memory bytes start) left count index result).1
    obtain ⟨read, advanced⟩ := readUBitLong_group memory bytes r _ standing (by omega)
    have next : start + 8 * index + 8 = start + 8 * (index + 1) := by omega
    have grouped : ((r.readUBitLong memory 8).1).setWidth width =
        (stream memory bytes start index).setWidth width := by
      rw [read]
      exact widened width _
    have joined : ((stream memory bytes start index).setWidth width &&& BitVec.ofNat width 0x7F) <<<
        (7 * count) = group width (stream memory bytes start index) count := rfl
    rw [next] at advanced
    simp only [readVarIntLoop, decodeFrom, grouped, joined] at inside ⊢
    have test := continuation_at width wide (stream memory bytes start index)
    by_cases more : continues (stream memory bytes start index) = true
    · simp only [test.mpr more, more, if_true, ne_eq, not_false_eq_true] at inside ⊢
      exact inductionHypothesis (count + 1) _ _ _ advanced inside
    · simp only [mt test.mp more, more, if_false, Bool.false_eq_true]
      exact ⟨trivial, advanced⟩

/-- The next groups are those of a number, and as many as it has are allowed: then
    the loop returns the number and stands behind them. -/
theorem readVarIntLoop_encoded (memory : Int → Byte) (bytes width left number position : Nat)
    (wide : 8 ≤ width) (r : CBitRead) (standing : At memory bytes false r position)
    (fits : (encode number).length ≤ left)
    (follows : Follows (bitList memory bytes) position (encode number)) :
    (readVarIntLoop memory width left 0 0 r).1 = BitVec.ofNat width number ∧
      At memory bytes false (readVarIntLoop memory width left 0 0 r).2
        (position + 8 * (encode number).length) := by
  have decoded := decodeFrom_encode (stream memory bytes position) left 0 number 0
    (0 : BitVec width) fits (by
      intro index within
      rw [Nat.zero_add]
      exact follows.byte index within)
  rw [Nat.zero_add] at decoded
  have inside := follows.inside (encode_nonempty number)
  rw [bitList_length] at inside
  obtain ⟨result, advanced⟩ := readVarIntLoop_at memory bytes position width left 0 0 wide 0 r
    standing (by rw [decoded]; exact inside)
  rw [decoded] at result advanced
  refine ⟨?_, advanced⟩
  rw [result]
  simp

/-- The ranges that the source lists give the length of the encoding. -/
theorem encode_length32 (number : Nat) (fits : number < 2 ^ 32) :
    (encode number).length = encodedSize32 number := by
  have last : number / 128 / 128 / 128 / 128 < 128 := by omega
  rw [encode_length_step, encode_length_step (number / 128), encode_length_step (number / 128 / 128),
    encode_length_step (number / 128 / 128 / 128),
    encode_length_step (number / 128 / 128 / 128 / 128), if_pos last]
  unfold encodedSize32
  split_ifs <;> omega

theorem readVarInt32_encoded (memory : Int → Byte) (bytes position : Nat) (r : CBitRead)
    (number : BitVec 32) (standing : At memory bytes false r position)
    (follows : Follows (bitList memory bytes) position (encode number.toNat)) :
    (r.readVarInt32 memory).1 = number ∧
      At memory bytes false (r.readVarInt32 memory).2
        (position + 8 * (encode number.toNat).length) := by
  have short := encode_length 4 number.toNat (Nat.lt_of_lt_of_le number.isLt (by decide))
  obtain ⟨result, advanced⟩ := readVarIntLoop_encoded memory bytes 32 kMaxVarint32Bytes number.toNat
    position (by decide) r standing short follows
  rw [readVarInt32, readVarInt32Loop_eq]
  rw [BitVec.ofNat_toNat, BitVec.setWidth_eq] at result
  exact ⟨result, advanced⟩

theorem readVarInt64_encoded (memory : Int → Byte) (bytes position : Nat) (r : CBitRead)
    (number : BitVec 64) (standing : At memory bytes false r position)
    (follows : Follows (bitList memory bytes) position (encode number.toNat)) :
    (r.readVarInt64 memory).1 = number ∧
      At memory bytes false (r.readVarInt64 memory).2
        (position + 8 * (encode number.toNat).length) := by
  have short := encode_length 9 number.toNat (Nat.lt_of_lt_of_le number.isLt (by decide))
  obtain ⟨result, advanced⟩ := readVarIntLoop_encoded memory bytes 64 kMaxVarintBytes number.toNat
    position (by decide) r standing short follows
  rw [BitVec.ofNat_toNat, BitVec.setWidth_eq] at result
  exact ⟨result, advanced⟩

/-- The signed numbers are the zigzag transform of the unsigned ones. -/
theorem zigZagDecode32_encode (number : BitVec 32) :
    zigZagDecode32 (zigZagEncode32 number) = number := ZigZag.decode_encode number

theorem zigZagDecode64_encode (number : BitVec 64) :
    zigZagDecode64 (zigZagEncode64 number) = number := ZigZag.decode_encode number

/-- Any bits at all make the 32-bit loop stop after at most five groups, if these
    exist. -/
theorem readVarInt32_stops (memory : Int → Byte) (bytes position : Nat) (r : CBitRead)
    (standing : At memory bytes false r position) (enough : position + 8 * 5 ≤ 8 * bytes) :
    ∃ groups, 1 ≤ groups ∧ groups ≤ 5 ∧
      At memory bytes false (r.readVarInt32 memory).2 (position + 8 * groups) := by
  have ends : 0 < (decodeFrom (stream memory bytes position) kMaxVarint32Bytes 0 (0 : BitVec 32) 0).2 ∧
      (decodeFrom (stream memory bytes position) kMaxVarint32Bytes 0 (0 : BitVec 32) 0).2 ≤ 0 + 5 :=
    decodeFrom_end (stream memory bytes position) 4 0 0 0
  refine ⟨_, ends.1, Nat.le_trans ends.2 (by decide), ?_⟩
  rw [readVarInt32, readVarInt32Loop_eq]
  exact (readVarIntLoop_at memory bytes position 32 kMaxVarint32Bytes 0 0 (by decide) 0 r standing
    (Nat.le_trans (by omega) enough)).2

/-- The 64-bit loop stops after at most ten. -/
theorem readVarInt64_stops (memory : Int → Byte) (bytes position : Nat) (r : CBitRead)
    (standing : At memory bytes false r position) (enough : position + 8 * 10 ≤ 8 * bytes) :
    ∃ groups, 1 ≤ groups ∧ groups ≤ 10 ∧
      At memory bytes false (r.readVarInt64 memory).2 (position + 8 * groups) := by
  have ends : 0 < (decodeFrom (stream memory bytes position) kMaxVarintBytes 0 (0 : BitVec 64) 0).2 ∧
      (decodeFrom (stream memory bytes position) kMaxVarintBytes 0 (0 : BitVec 64) 0).2 ≤ 0 + 10 :=
    decodeFrom_end (stream memory bytes position) 9 0 0 0
  refine ⟨_, ends.1, Nat.le_trans ends.2 (by decide), ?_⟩
  exact (readVarIntLoop_at memory bytes position 64 kMaxVarintBytes 0 0 (by decide) 0 r standing
    (Nat.le_trans (by omega) enough)).2

/-- A reader at any bit position reads back every number whose encoding follows,
    unsigned or through the zigzag transform, and stands behind exactly its groups,
    where it reports to stand.
    On any other bits it stops after as many groups as the width can take. -/
theorem varints_read_at_any_bit (memory : Int → Byte) (bytes position : Nat) (r : CBitRead)
    (standing : At memory bytes false r position) :
    (∀ v : BitVec 32, Follows (bitList memory bytes) position (encode v.toNat) →
      (encode v.toNat).length = encodedSize32 v.toNat ∧ (r.readVarInt32 memory).1 = v ∧
        StandsAt memory bytes (r.readVarInt32 memory).2 (position + 8 * (encode v.toNat).length)) ∧
    (∀ w : BitVec 64, Follows (bitList memory bytes) position (encode w.toNat) →
      (1 ≤ (encode w.toNat).length ∧ (encode w.toNat).length ≤ 10) ∧ (r.readVarInt64 memory).1 = w ∧
        StandsAt memory bytes (r.readVarInt64 memory).2 (position + 8 * (encode w.toNat).length)) ∧
    (∀ x : BitVec 32, Follows (bitList memory bytes) position (encode (zigZagEncode32 x).toNat) →
      (r.readSignedVarInt32 memory).1 = x ∧ StandsAt memory bytes (r.readSignedVarInt32 memory).2
        (position + 8 * (encode (zigZagEncode32 x).toNat).length)) ∧
    (∀ y : BitVec 64, Follows (bitList memory bytes) position (encode (zigZagEncode64 y).toNat) →
      (r.readSignedVarInt64 memory).1 = y ∧ StandsAt memory bytes (r.readSignedVarInt64 memory).2
        (position + 8 * (encode (zigZagEncode64 y).toNat).length)) ∧
    (position + 8 * 5 ≤ 8 * bytes → ∃ groups, 1 ≤ groups ∧ groups ≤ 5 ∧
      StandsAt memory bytes (r.readVarInt32 memory).2 (position + 8 * groups)) ∧
    (position + 8 * 10 ≤ 8 * bytes → ∃ groups, 1 ≤ groups ∧ groups ≤ 10 ∧
      StandsAt memory bytes (r.readVarInt64 memory).2 (position + 8 * groups)) := by
  refine ⟨?_, ?_, ?_, ?_, ?_, ?_⟩
  · intro v follows
    obtain ⟨result, advanced⟩ := readVarInt32_encoded memory bytes position r v standing follows
    exact ⟨encode_length32 v.toNat v.isLt, result, advanced.standsAt⟩
  · intro w follows
    have short := encode_length 9 w.toNat (Nat.lt_of_lt_of_le w.isLt (by decide))
    obtain ⟨result, advanced⟩ := readVarInt64_encoded memory bytes position r w standing follows
    exact ⟨⟨encode_nonempty w.toNat, short⟩, result, advanced.standsAt⟩
  · intro x follows
    obtain ⟨result, advanced⟩ :=
      readVarInt32_encoded memory bytes position r (zigZagEncode32 x) standing follows
    exact ⟨(congrArg zigZagDecode32 result).trans (zigZagDecode32_encode x), advanced.standsAt⟩
  · intro y follows
    obtain ⟨result, advanced⟩ :=
      readVarInt64_encoded memory bytes position r (zigZagEncode64 y) standing follows
    exact ⟨(congrArg zigZagDecode64 result).trans (zigZagDecode64_encode y), advanced.standsAt⟩
  · intro enough
    obtain ⟨groups, positive, few, stopped⟩ :=
      readVarInt32_stops memory bytes position r standing enough
    exact ⟨groups, positive, few, stopped.standsAt⟩
  · intro enough
    obtain ⟨groups, positive, few, stopped⟩ :=
      readVarInt64_stops memory bytes position r standing enough
    exact ⟨groups, positive, few, stopped.standsAt⟩

/-- A six-byte buffer whose bits from the fourth on are the encoding of 300. -/
def shiftedThreeHundred (address : Int) : Byte :=
  if address = 0 then 0x60#8 else if address = 1 then 0x15#8 else 0#8

/-- The number is read across the partial head, whose bytes it does not align with. -/
theorem shifted_three_hundred_read :
    ((((construct shiftedThreeHundred ⟨0, 0, 0, 0, false, false, 0, 0⟩ 6).seek shiftedThreeHundred
      ((3 : Nat) : Int)).2).readVarInt32 shiftedThreeHundred).1 = 300#32 := by
  have opened := construct_at shiftedThreeHundred ⟨0, 0, 0, 0, false, false, 0, 0⟩ 6 (by decide)
    (by decide)
  have standing := (seek_at shiftedThreeHundred 6 false _ 3 opened.opened opened.flag (by decide)
    (by decide)).2
  have encoded : encode (300#32).toNat = [0xAC#8, 0x02#8] := by
    rw [encode_more _ (by decide), encode_last _ (by decide)]
    decide
  exact ((varints_read_at_any_bit shiftedThreeHundred 6 3 _ standing).1 300#32
    (by rw [encoded]; decide +kernel)).2.1

end Sniffles.CBitRead
